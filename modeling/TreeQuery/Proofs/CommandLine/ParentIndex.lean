import TreeQuery.CommandLine.Run
import TreeQuery.Proofs.CommandLine.Options
import TreeQuery.Proofs.Path.RoundTrip
import TreeQuery.Proofs.Query.Local

namespace TreeQuery

open TreeQuery.Tree

/-- From the root, an index of the whole tree changes nothing for a confined expression. -/
theorem evaluate_root (t : Tree Label) (e : Expr) (isConfined : e.meets confined false)
    (allowed : Bool) :
    (e.evaluate (Registry.standard allowed) (ParentIndex.build t.placed).root).value =
      (e.evaluate (Registry.standard allowed) (.plain t.placed)).value.map
        (List.map (Handle.indexed t.placed)) := by
  have start : PlainUnder t.placed (.plain t.placed) (.plain t.placed) ∧
      (false = false → t.placed = t.placed) :=
    ⟨plainUnder_self t.placed.self_mem_preorder, fun _ => rfl⟩
  exact (indexTransfer _ (ordered_placed t) allowed).evaluateWith isConfined start

/-- A report says nothing of a match but what its node says. -/
theorem ReportMode.report_indexed (t : Tree Placed) (mode : ReportMode) (matched : List Handle) :
    mode.report (matched.map (Handle.indexed t)) = mode.report matched := by
  have lines : mode.lines (matched.map (Handle.indexed t)) = mode.lines matched := by
    cases mode with
    | nodes => rw [ReportMode.lines, List.map_map]; rfl
    | values => rw [ReportMode.lines, Handle.values, List.filterMap_map]; rfl
    | scalar =>
      match matched with
      | [] => rfl
      | [h] => rfl
      | h :: k :: more => rfl
    | count => rw [ReportMode.lines, List.length_map]; rfl
  rw [ReportMode.report, lines, ReportMode.report]

namespace CommandLine

variable (a : Arguments)

/-- Only for a JSON tree the option makes a difference, and then only to what the root knows. -/
theorem root_parentIndex (text : String) :
    Arguments.root { a with parentIndex := false } text = a.root text ∨
      ∃ t : Tree Label,
        Arguments.root { a with parentIndex := false } text = .ok (.plain t.placed) ∧
        a.root text = .ok (ParentIndex.build t.placed).root := by
  unfold Arguments.root
  dsimp only
  cases a.format.getD (InputFormat.detect a.file) with
  | xml => exact .inl rfl
  | json =>
    dsimp only
    cases Tree.ofJson text a.exposeTerminals with
    | error problem => exact .inl rfl
    | ok t =>
      cases a.parentIndex with
      | false => exact .inl rfl
      | true => exact .inr ⟨t, rfl, rfl⟩

theorem report_parentIndex (inputs : Inputs) {e : Expr} (read : Expr.parse a.expression = .ok e)
    (isConfined : e.meets confined false) :
    Arguments.report { a with parentIndex := false } inputs = a.report inputs := by
  unfold Arguments.report
  dsimp only
  rw [read]
  cases inputs.text a.file with
  | error error => rfl
  | ok text =>
    change (Arguments.root { a with parentIndex := false } text >>= _) = (a.root text >>= _)
    rcases root_parentIndex a text with same | ⟨t, plain, indexed⟩
    · rw [same]
    · rw [plain, indexed]
      have moved := evaluate_root t e isConfined a.builtins
      let functions := Registry.standard a.builtins
      change ((e.report a.mode functions (.plain t.placed)).mapError _ >>= _) =
        ((e.report a.mode functions (ParentIndex.build t.placed).root).mapError _ >>= _)
      rw [Expr.report, Expr.report, moved]
      cases (e.evaluate functions (.plain t.placed)).value with
      | error error => rfl
      | ok matched => exact congrArg Except.ok (a.mode.report_indexed t.placed matched).symm

theorem run_parentIndex {given given' : List String} {inputs : Inputs} {e : Expr}
    (read : Expr.parse a.expression = .ok e) (isConfined : e.meets confined false)
    (indexed : Arguments.ofList given = .ok a)
    (without : Arguments.ofList given' = .ok { a with parentIndex := false }) :
    run given' inputs = run given inputs := by
  unfold run
  rw [indexed, without]
  dsimp only
  rw [report_parentIndex a inputs read isConfined]

/-- Evaluation from the root comes to the same nodes with an index of parents and without, if only
local axes stand in predicates. So a run leaves the same behind when the option is added, and any
two runs do whose arguments differ in nothing but the index. -/
theorem parentIndex_only_accelerates (e : Expr) (isConfined : e.meets confined false) :
    (∀ t : Tree Label, (e.evaluate .builtins (ParentIndex.build t.placed).root).value =
      (e.evaluate .builtins (.plain t.placed)).value.map
        (List.map fun h => (ParentIndex.build t.placed).handle h.node)) ∧
    (∀ (a : Arguments) (given : List String) (inputs : Inputs),
      Expr.parse a.expression = .ok e → Arguments.ofList given = .ok a → a.parentIndex = true →
      run ("--no-parent-index" :: given) inputs = run given inputs) ∧
    (∀ (a : Arguments) (given given' : List String) (inputs : Inputs),
      Expr.parse a.expression = .ok e → Arguments.ofList given = .ok a →
      Arguments.ofList given' = .ok { a with parentIndex := false } →
      run given' inputs = run given inputs) := by
  refine ⟨fun t => evaluate_root t e isConfined true, ?_, ?_⟩
  · intro a given inputs read indexed keeps
    exact run_parentIndex a read isConfined indexed (Arguments.ofList_flag indexed keeps)
  · intro a given given' inputs read indexed without
    exact run_parentIndex a read isConfined indexed without

theorem parentIndex_only_accelerates_ancestors :
    let e : Expr := .path false
      [.mk .descendant .any [.nested (.path false [.mk .ancestorOrSelf (.named "a") []])],
        .mk .parent .any []]
    e.meets confined false ∧ ∀ inputs,
      run ["--no-parent-index", "descendant::*[ancestor-or-self::a]/parent::*"] inputs =
        run ["descendant::*[ancestor-or-self::a]/parent::*"] inputs := by
  intro e
  have isConfined : e.meets confined false := by decide
  have well : e.meets Path.wellFormed false := by decide
  have without : e.meets Path.withoutEither false := by decide
  have written : toString e = "descendant::*[ancestor-or-self::a]/parent::*" := by decide
  have read : Expr.parse "descendant::*[ancestor-or-self::a]/parent::*" = .ok e :=
    written ▸ Path.parse_toString well without
  let a : Arguments :=
    ⟨"descendant::*[ancestor-or-self::a]/parent::*", none, none, .standard, true, true, false⟩
  have given : Arguments.ofList ["descendant::*[ancestor-or-self::a]/parent::*"] = .ok a := by rfl
  refine ⟨isConfined, fun inputs => ?_⟩
  exact (parentIndex_only_accelerates e isConfined).2.1 a _ inputs read given rfl

end CommandLine

end TreeQuery
