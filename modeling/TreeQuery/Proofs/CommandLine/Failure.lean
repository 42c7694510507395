import TreeQuery.CommandLine.Run
import TreeQuery.Proofs.Query.Missing

namespace TreeQuery.CommandLine

/-- The bytes of a file, or of the standard input where there is no path. -/
def Inputs.bytes (inputs : Inputs) : Option String → Except InputError ByteArray
  | some path => inputs.file path
  | none => inputs.standard

section

variable {inputs : Inputs} {path : Option String}

theorem Inputs.text_eq :
    inputs.text path = inputs.bytes path >>= fun bytes =>
      match String.fromUTF8? bytes with
      | some text => pure text
      | none => .error .notText := by
  cases path with
  | none => rfl
  | some path => rfl

theorem Inputs.text_absent {error : InputError} (absent : inputs.bytes path = .error error) :
    inputs.text path = .error error := by
  rw [text_eq, absent]
  rfl

theorem Inputs.text_present {bytes : ByteArray} (present : inputs.bytes path = .ok bytes) :
    inputs.text path =
      match String.fromUTF8? bytes with
      | some text => .ok text
      | none => .error .notText := by
  rw [text_eq, present]
  rfl

end

/-- What a run needs. -/
inductive Stage where
  | expression
  | input
  | tree
  | functions

/-- The stages of a run that come before one. -/
def Stage.before : Stage → List Stage
  | expression => []
  | input => [expression]
  | tree => [expression, input]
  | functions => [expression, input, tree]

namespace Arguments

variable (a : Arguments) (inputs : Inputs)

/-- The functions of an expression that a run does not know. -/
def unregistered (e : Expr) : List String :=
  e.functionNames.filter fun name => ((Registry.standard a.builtins).get? name).isNone

/-- What is wrong at a stage, whether or not anything is wrong at another one. -/
inductive Fault : Stage → Failure → Prop where
  | expression {error : PathError} (unread : Expr.parse a.expression = .error error) :
    Fault .expression (.path error)
  | bytes {error : InputError} (absent : inputs.bytes a.file = .error error) :
    Fault .input (.input error)
  | encoding {bytes : ByteArray} (present : inputs.bytes a.file = .ok bytes)
    (notText : String.fromUTF8? bytes = none) : Fault .input (.input .notText)
  | json {text : String} {problem : TreeProblem} (present : inputs.text a.file = .ok text)
    (format : a.format.getD (InputFormat.detect a.file) = .json)
    (refused : Tree.ofJson text a.exposeTerminals = .error problem) : Fault .tree (.json problem)
  | xml {text : String} (present : inputs.text a.file = .ok text)
    (format : a.format.getD (InputFormat.detect a.file) = .xml)
    (refused : Xml.Document.ofText? text = none) : Fault .tree .xml
  | functions {e : Expr} (read : Expr.parse a.expression = .ok e) (some : a.unregistered e ≠ []) :
    Fault .functions (.path (.missingFunctions (a.unregistered e)))

/-- Nothing is wrong at the stage. -/
def Passes (stage : Stage) : Prop := ∀ failure, ¬ a.Fault inputs stage failure

/-- What is wrong where nothing is wrong at an earlier stage. -/
def FirstFault (failure : Failure) : Prop :=
  ∃ stage, a.Fault inputs stage failure ∧ ∀ earlier ∈ stage.before, a.Passes inputs earlier

theorem first_or_passes :
    (∃ failure, a.FirstFault inputs failure) ∨ ∀ stage, a.Passes inputs stage := by
  by_contra neither
  rw [not_or, not_exists] at neither
  obtain ⟨none, some⟩ := neither
  have next (stage : Stage) (before : ∀ earlier ∈ stage.before, a.Passes inputs earlier) :
      a.Passes inputs stage := fun failure fault => none failure ⟨stage, fault, before⟩
  have expression := next .expression (by simp [Stage.before])
  have input := next .input (by simpa [Stage.before])
  have tree := next .tree (by simpa [Stage.before] using ⟨expression, input⟩)
  have functions := next .functions (by simpa [Stage.before] using ⟨expression, input, tree⟩)
  exact some fun stage => by cases stage <;> assumption

variable {a inputs} {e : Expr} {text : String} {root : Handle} {failure : Failure}

/-- What a run prints when all is read. -/
def output (a : Arguments) (e : Expr) (root : Handle) : Except Failure String := do
  let (report, _) ← (e.report a.mode (Registry.standard a.builtins) root).mapError .path
  pure report

theorem report_read (read : Expr.parse a.expression = .ok e) :
    a.report inputs = (inputs.text a.file).mapError .input >>= fun text =>
      a.root text >>= a.output e := by
  unfold report
  rw [read]
  rfl

theorem report_present (read : Expr.parse a.expression = .ok e)
    (present : inputs.text a.file = .ok text) : a.report inputs = a.root text >>= a.output e := by
  rw [report_read read, present]
  rfl

theorem report_built (read : Expr.parse a.expression = .ok e)
    (present : inputs.text a.file = .ok text) (built : a.root text = .ok root) :
    a.report inputs = a.output e root := by
  rw [report_present read present, built]
  rfl

theorem Fault.report_expression (fault : a.Fault inputs .expression failure) :
    a.report inputs = .error failure := by
  cases fault with
  | expression unread =>
    unfold report
    rw [unread]
    rfl

theorem Passes.exists_expr (passes : a.Passes inputs .expression) :
    ∃ e, Expr.parse a.expression = .ok e := by
  cases read : Expr.parse a.expression with
  | error error => exact absurd (.expression read) (passes _)
  | ok e => exact ⟨e, rfl⟩

theorem Fault.text_eq_error (fault : a.Fault inputs .input failure) :
    (inputs.text a.file).mapError .input = .error failure := by
  cases fault with
  | bytes absent =>
    rw [Inputs.text_absent absent]
    rfl
  | encoding present notText =>
    rw [Inputs.text_present present, notText]
    rfl

theorem Passes.exists_text (passes : a.Passes inputs .input) :
    ∃ text, inputs.text a.file = .ok text := by
  cases present : inputs.bytes a.file with
  | error error => exact absurd (.bytes present) (passes _)
  | ok bytes =>
    rw [Inputs.text_present present]
    cases decoded : String.fromUTF8? bytes with
    | none => exact absurd (.encoding present decoded) (passes _)
    | some text => exact ⟨text, rfl⟩

theorem Fault.root_eq_error (present : inputs.text a.file = .ok text)
    (fault : a.Fault inputs .tree failure) : a.root text = .error failure := by
  cases fault with
  | json present' format refused =>
    obtain rfl := Except.ok.inj (present.symm.trans present')
    rw [Arguments.root, format]
    dsimp only
    rw [refused]
  | xml present' format refused =>
    obtain rfl := Except.ok.inj (present.symm.trans present')
    rw [Arguments.root, format]
    dsimp only
    rw [refused]

theorem Passes.exists_root (present : inputs.text a.file = .ok text)
    (passes : a.Passes inputs .tree) : ∃ root, a.root text = .ok root := by
  rw [Arguments.root]
  cases format : a.format.getD (InputFormat.detect a.file) with
  | json =>
    dsimp only
    cases built : Tree.ofJson text a.exposeTerminals with
    | error problem => exact absurd (.json present format built) (passes _)
    | ok t => exact ⟨_, rfl⟩
  | xml =>
    dsimp only
    cases built : Xml.Document.ofText? text with
    | none => exact absurd (.xml present format built) (passes _)
    | some d => exact ⟨_, rfl⟩

theorem missing_functions (e : Expr) :
    e.missing (Registry.standard a.builtins).functions = a.unregistered e := by
  unfold Expr.missing unregistered
  simp only [Registry.functions_isNone]

theorem Fault.output_eq_error (read : Expr.parse a.expression = .ok e)
    (fault : a.Fault inputs .functions failure) (root : Handle) :
    a.output e root = .error failure := by
  cases fault with
  | functions read' some =>
    obtain rfl := Except.ok.inj (read.symm.trans read')
    rw [output, Expr.report, Expr.evaluate, Expr.evaluateFrom, Expr.evaluateWith_value,
      missing_functions, if_neg some]
    rfl

theorem Passes.exists_output (read : Expr.parse a.expression = .ok e)
    (passes : a.Passes inputs .functions) (root : Handle) : ∃ out, a.output e root = .ok out := by
  have all : a.unregistered e = [] := by
    by_contra some
    exact passes _ (.functions read some)
  rw [output, Expr.report, Expr.evaluate, Expr.evaluateFrom, Expr.evaluateWith_value,
    missing_functions, if_pos all]
  exact ⟨_, rfl⟩

theorem FirstFault.report_eq (first : a.FirstFault inputs failure) :
    a.report inputs = .error failure := by
  obtain ⟨stage, fault, before⟩ := first
  cases stage with
  | expression => exact fault.report_expression
  | input =>
    obtain ⟨e, read⟩ := (before .expression (by simp [Stage.before])).exists_expr
    rw [report_read read, fault.text_eq_error]
    rfl
  | tree =>
    obtain ⟨e, read⟩ := (before .expression (by simp [Stage.before])).exists_expr
    obtain ⟨text, present⟩ := (before .input (by simp [Stage.before])).exists_text
    rw [report_present read present, fault.root_eq_error present]
    rfl
  | functions =>
    obtain ⟨e, read⟩ := (before .expression (by simp [Stage.before])).exists_expr
    obtain ⟨text, present⟩ := (before .input (by simp [Stage.before])).exists_text
    obtain ⟨root, built⟩ := (before .tree (by simp [Stage.before])).exists_root present
    rw [report_built read present built, fault.output_eq_error read]

theorem exists_report (passes : ∀ stage, a.Passes inputs stage) :
    ∃ out, a.report inputs = .ok out := by
  obtain ⟨e, read⟩ := (passes .expression).exists_expr
  obtain ⟨text, present⟩ := (passes .input).exists_text
  obtain ⟨root, built⟩ := (passes .tree).exists_root present
  rw [report_built read present built]
  exact (passes .functions).exists_output read root

end Arguments

/-- What a run that fails leaves behind. -/
def Failure.outcome (failure : Failure) : Outcome := ⟨1, "", "Error: " ++ failure.message ++ "\n"⟩

section

variable {given : List String} {a : Arguments} {inputs : Inputs}

theorem run_of_report_error (accepted : Arguments.ofList given = .ok a) {failure : Failure}
    (h : a.report inputs = .error failure) : run given inputs = failure.outcome := by
  rw [run, accepted]
  dsimp only
  rw [h, Failure.outcome]

theorem run_of_report_ok (accepted : Arguments.ofList given = .ok a) {out : String}
    (h : a.report inputs = .ok out) : run given inputs = ⟨0, out, ""⟩ := by
  rw [run, accepted]
  dsimp only
  rw [h]

/-- With proper arguments a run either succeeds, or prints nothing but a message about the first
thing that is wrong. So if the expression cannot be read, neither the input nor the other arguments
make a difference. -/
theorem run_fails_cleanly (accepted : Arguments.ofList given = .ok a) (inputs : Inputs) :
    ((run given inputs).exit = 0 ∨ (run given inputs).exit = 1 ∧ (run given inputs).stdout = "") ∧
    (∀ failure, a.FirstFault inputs failure → run given inputs = failure.outcome) ∧
    ((∀ stage, a.Passes inputs stage) → ∃ out, run given inputs = ⟨0, out, ""⟩) ∧
    ∀ error, Expr.parse a.expression = .error error →
      ∀ (given' : List String) (a' : Arguments) (inputs' : Inputs),
        Arguments.ofList given' = .ok a' → a'.expression = a.expression →
        run given' inputs' = run given inputs := by
  have fails : ∀ failure, a.FirstFault inputs failure → run given inputs = failure.outcome :=
    fun failure first => run_of_report_error accepted first.report_eq
  have succeeds : (∀ stage, a.Passes inputs stage) → ∃ out, run given inputs = ⟨0, out, ""⟩ := by
    intro passes
    obtain ⟨out, printed⟩ := Arguments.exists_report passes
    exact ⟨out, run_of_report_ok accepted printed⟩
  refine ⟨?_, fails, succeeds, ?_⟩
  · rcases a.first_or_passes inputs with ⟨failure, first⟩ | passes
    · rw [fails failure first]
      exact .inr ⟨rfl, rfl⟩
    · obtain ⟨out, success⟩ := succeeds passes
      rw [success]
      exact .inl rfl
  · intro error unread given' a' inputs' accepted' same
    have unread' := same ▸ unread
    rw [run_of_report_error accepted (Arguments.Fault.expression unread).report_expression,
      run_of_report_error accepted' (Arguments.Fault.expression unread').report_expression]

end

theorem parse_foo_bar :
    Expr.parse "/foo::bar" = .error (.unknownAxis "/foo::bar" "foo") := by
  have trimmed : Text.trim "/foo::bar".toList = "/foo::bar".toList := by decide
  have broken : Path.readExpr (Text.trim "/foo::bar".toList) =
      .broken (.unknownAxis "foo".toList) := by
    rw [trimmed, Path.readExpr]
    rfl
  unfold Expr.parse
  dsimp only
  rw [broken]
  rfl

/-- The file is missing as well, but that is not what is reported. -/
theorem run_fails_cleanly_unread :
    let given := ["/foo::bar", "missing.json"]
    let a : Arguments := ⟨"/foo::bar", some "missing.json", none, .standard, true, true, false⟩
    let inputs : Inputs := ⟨.ok .empty, fun _ => .error .notFound⟩
    Arguments.ofList given = .ok a ∧ a.Fault inputs .input (.input .notFound) ∧
      run given inputs = ⟨1, "", "Error: Unsupported axis specifier 'foo' in '/foo::bar'\n"⟩ ∧
      ∀ inputs', run ["--output=count", "/foo::bar"] inputs' = run given inputs := by
  intro given a inputs
  have accepted : Arguments.ofList given = .ok a := by rfl
  let a' : Arguments := ⟨"/foo::bar", none, none, .count, true, true, false⟩
  have accepted' : Arguments.ofList ["--output=count", "/foo::bar"] = .ok a' := by rfl
  obtain ⟨-, fails, -, alike⟩ := run_fails_cleanly accepted inputs
  refine ⟨accepted, .bytes rfl, ?_, fun inputs' => ?_⟩
  · exact fails _ ⟨.expression, .expression parse_foo_bar, nofun⟩
  · exact alike _ parse_foo_bar _ a' inputs' accepted' rfl

end TreeQuery.CommandLine
