import TreeQuery.CommandLine.Run
import TreeQuery.Proofs.CommandLine.Options
import TreeQuery.Proofs.Path.RoundTrip
import TreeQuery.Proofs.Query.Named

namespace TreeQuery

theorem PredicateFunction.alike_terminal : terminal.Alike terminal :=
  fun _ _ _ _ _ _ => rfl

theorem PredicateFunction.alike_last : last.Alike last :=
  fun _ _ _ _ _ _ => rfl

/-- The standard functions look at the node and the candidates only. -/
theorem Registry.alike_builtins (name : String) : builtins.AlikeAt builtins name :=
  alikeAt_of_get?_eq rfl fun _ =>
    of_get?_builtins (P := fun f => f.Alike f) PredicateFunction.alike_last
      PredicateFunction.alike_terminal

/-- Under any other name there is no function in either of the two registries. -/
theorem Registry.alike_empty {name : String} (notTerminal : name ≠ "terminal")
    (notLast : name ≠ "last") : builtins.AlikeAt empty name := by
  unfold AlikeAt
  rw [get?_builtins, if_neg notLast.symm, if_neg notTerminal.symm]
  exact .none

namespace CommandLine

variable (a : Arguments)

/-- What is reported depends on the standard functions only through what the expression finds. -/
theorem report_builtins (inputs : Inputs) {e : Expr} (read : Expr.parse a.expression = .ok e)
    (notTerminal : "terminal" ∉ e.functionNames) (notLast : "last" ∉ e.functionNames) :
    Arguments.report { a with builtins := false } inputs = a.report inputs := by
  have alike : ∀ name ∈ e.functionNames, Registry.builtins.AlikeAt .empty name :=
    fun name named => Registry.alike_empty (ne_of_mem_of_not_mem named notTerminal)
      (ne_of_mem_of_not_mem named notLast)
  unfold Arguments.report
  dsimp only
  rw [read]
  cases a.builtins with
  | false => rfl
  | true =>
    have report : ∀ root, e.report a.mode .empty root = e.report a.mode .builtins root := by
      intro root
      rw [Expr.report, Expr.report, Expr.evaluate, Expr.evaluate, Expr.evaluateFrom_alike alike]
    change ((inputs.text a.file).mapError Failure.input >>= _) =
      ((inputs.text a.file).mapError Failure.input >>= _)
    refine bind_congr fun text => bind_congr fun root => ?_
    rw [if_neg Bool.false_ne_true, if_pos rfl, report]

theorem run_builtins {given given' : List String} {inputs : Inputs} {e : Expr}
    (read : Expr.parse a.expression = .ok e) (notTerminal : "terminal" ∉ e.functionNames)
    (notLast : "last" ∉ e.functionNames) (asked : Arguments.ofList given = .ok a)
    (without : Arguments.ofList given' = .ok { a with builtins := false }) :
    run given' inputs = run given inputs := by
  unfold run
  rw [asked, without]
  dsimp only
  rw [report_builtins a inputs read notTerminal notLast]

/-- Two registries give an expression the same outcome, be it nodes or missing functions, if for each
function that it names both lack it or both have one that answers alike, looking at nothing but the
node and the candidates. So nothing changes if functions of other names are added, replaced or taken
away. Neither does what a run leaves behind, if the option that takes `terminal` and `last` away is
added and the expression names neither. -/
theorem only_named_functions_matter (e : Expr) :
    (∀ registry registry' : Registry,
      (∀ name ∈ e.functionNames, registry.AlikeAt registry' name) → ∀ root start,
      (e.evaluateFrom registry' root start).value = (e.evaluateFrom registry root start).value) ∧
    (∀ registry : Registry,
      (∀ name ∈ e.functionNames, ∀ f, registry.get? name = some f → f.Alike f) →
      ∀ other, other ∉ e.functionNames → ∀ f root start,
      (e.evaluateFrom (registry.register other f) root start).value =
          (e.evaluateFrom registry root start).value ∧
        (e.evaluateFrom (Dictionary.erase registry other) root start).value =
          (e.evaluateFrom registry root start).value) ∧
    ("terminal" ∉ e.functionNames → "last" ∉ e.functionNames →
      ∀ (a : Arguments) (given : List String) (inputs : Inputs),
      Expr.parse a.expression = .ok e → Arguments.ofList given = .ok a →
      (a.builtins = true → run ("--no-builtins" :: given) inputs = run given inputs) ∧
      ∀ given', Arguments.ofList given' = .ok { a with builtins := false } →
        run given' inputs = run given inputs) := by
  refine ⟨fun registry registry' alike => Expr.evaluateFrom_alike alike, ?_, ?_⟩
  · intro registry alike other unnamed f root start
    have apart : ∀ name ∈ e.functionNames, other ≠ name :=
      fun name named same => unnamed (same ▸ named)
    constructor
    · refine Expr.evaluateFrom_alike (fun name named => ?_) root start
      refine Registry.alikeAt_of_get?_eq ?_ (alike name named)
      rw [Registry.register, Dictionary.get?_insert, if_neg (apart name named)]
    · refine Expr.evaluateFrom_alike (fun name named => ?_) root start
      refine Registry.alikeAt_of_get?_eq ?_ (alike name named)
      rw [Dictionary.get?_erase, if_neg (apart name named)]
  · intro notTerminal notLast a given inputs read asked
    refine ⟨fun allowed => ?_, fun given' without => ?_⟩
    · have fresh : a.has .noBuiltins = false := by rw [Arguments.has, allowed]; rfl
      exact run_builtins a read notTerminal notLast asked
        (Arguments.ofList_cons .noBuiltins asked fresh)
    · exact run_builtins a read notTerminal notLast asked without

theorem only_named_functions_matter_last :
    let children (p : Predicate) : Expr := .path false [.mk .child .any [p]]
    let e := children (.nested (children (.function "last")))
    let first := children (.position 1)
    let all : PredicateFunction := fun _ _ _ => .answer true
    (∀ name ∈ e.functionNames, Registry.builtins.AlikeAt .builtins name) ∧
      "terminal" ∉ e.functionNames ∧
      (∀ root start, (e.evaluateFrom (Registry.builtins.register "terminal" all) root start).value =
        (e.evaluateFrom .builtins root start).value) ∧
      ("terminal" ∉ first.functionNames ∧ "last" ∉ first.functionNames) ∧
      ∀ inputs, run ["--no-builtins", "child::*[1]"] inputs = run ["child::*[1]"] inputs := by
  intro children e first all
  have alike : ∀ name ∈ e.functionNames, Registry.builtins.AlikeAt .builtins name :=
    fun name _ => Registry.alike_builtins name
  have usual : ∀ name ∈ e.functionNames, ∀ f, Registry.builtins.get? name = some f → f.Alike f := by
    intro name _ f found
    have same := Registry.alike_builtins name
    rw [Registry.AlikeAt, found] at same
    cases same with
    | some alike => exact alike
  have unnamed : "terminal" ∉ e.functionNames := by decide
  have neither : "terminal" ∉ first.functionNames ∧ "last" ∉ first.functionNames := by decide
  obtain ⟨-, others, -⟩ := only_named_functions_matter e
  obtain ⟨-, -, option⟩ := only_named_functions_matter first
  have well : first.meets Path.wellFormed false := by decide
  have without : first.meets Path.withoutEither false := by decide
  have written : toString first = "child::*[1]" := by decide
  have read : Expr.parse "child::*[1]" = .ok first := written ▸ Path.parse_toString well without
  let a : Arguments := ⟨"child::*[1]", none, none, .standard, true, true, false⟩
  have given : Arguments.ofList ["child::*[1]"] = .ok a := by rfl
  refine ⟨alike, unnamed, fun root start => ?_, neither, fun inputs => ?_⟩
  · exact (others .builtins usual "terminal" unnamed all root start).1
  · exact (option neither.1 neither.2 a _ inputs read given).1 rfl

end CommandLine

end TreeQuery
