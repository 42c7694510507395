import TreeQuery.Proofs.Query.Unchecked
import TreeQuery.Proofs.Query.Union

namespace TreeQuery

section

variable (functions : Functions) (root : Handle)

/-- Steps one after the other lead from several nodes to where they lead from each of them in turn. -/
theorem Step.foldl_take_eq_flatMap (steps : List Step) (current : List Handle) :
    steps.foldl (fun current s => (s.take functions root current).value) current =
      current.flatMap fun h =>
        steps.foldl (fun current s => (s.take functions root current).value) [h] := by
  induction steps generalizing current with
  | nil => exact (List.flatMap_singleton' current).symm
  | cons s steps ih =>
    rw [List.foldl_cons, ih, s.take_eq_flatMap, List.flatMap_assoc]
    refine List.flatMap_congr fun h _ => ?_
    rw [List.foldl_cons, ← ih]

/-- A path in two parts finds what the second finds from each node that the first finds. -/
theorem Expr.select_path_append (start : Handle) (absolute first second : Bool)
    (steps more : List Step) :
    (Expr.select functions (.path absolute (steps ++ more)) root start).value =
      (Expr.select functions (.path first steps) root start).value.flatMap fun h =>
        (Expr.select functions (.path second more) root h).value := by
  simp only [Expr.select_path, List.foldl_append]
  exact Step.foldl_take_eq_flatMap functions root more _

theorem Expr.missing_path_append_eq_nil {functions : Functions} {steps more : List Step}
    (absolute first second : Bool) :
    (path absolute (steps ++ more)).missing functions = [] ↔
      (path first steps).missing functions = [] ∧ (path second more).missing functions = [] := by
  simp only [missing_eq_nil_iff, named_path, List.flatMap_append, List.forall_mem_append]

end

/-- If the functions of two lists of steps are there, taking the one and then the other finds, node by
node in the order of the first list and as often as it finds them, what the second finds from each
under the same root. If the first finds nothing, neither does the whole; and stopping there finds what
is found by taking all steps to the end. -/
theorem path_goes_on_from_each (registry : Registry) (root start : Handle)
    (absolute first second : Bool) (steps more : List Step)
    (known : ∀ name ∈ (Expr.path first steps).functionNames, registry.contains name = true)
    (known' : ∀ name ∈ (Expr.path second more).functionNames, registry.contains name = true) :
    let whole := (Expr.path absolute (steps ++ more)).evaluateFrom registry root start
    let front := (Expr.path first steps).evaluateFrom registry root start
    (∃ reached results, front.value = .ok reached ∧
      List.Forall₂
        (fun h result => ((Expr.path second more).evaluateFrom registry root h).value = .ok result)
        reached results ∧
      whole.value = .ok results.flatten) ∧
    (front.value = .ok [] → whole.value = .ok []) ∧
    whole.value = .ok (Step.foundAll registry.functions.answer (steps ++ more) root [start]) := by
  intro whole front
  let functions := registry.functions
  have here := Registry.missing_eq_nil known
  have there := Registry.missing_eq_nil known'
  have all := (Expr.missing_path_append_eq_nil absolute first second).mpr ⟨here, there⟩
  have joined := Expr.select_path_append functions root start absolute first second steps more
  refine ⟨?_, fun none => ?_, ?_⟩
  · let reached := (Expr.select functions (.path first steps) root start).value
    let further (h : Handle) := (Expr.select functions (.path second more) root h).value
    refine ⟨reached, reached.map further, Expr.evaluateWith_eq_ok_iff.mpr ⟨here, rfl⟩, ?_, ?_⟩
    · rw [List.forall₂_map_right_iff, List.forall₂_same]
      exact fun h _ => Expr.evaluateWith_eq_ok_iff.mpr ⟨there, rfl⟩
    · exact Expr.evaluateWith_eq_ok_iff.mpr ⟨all, joined⟩
  · obtain ⟨-, nothing⟩ := Expr.evaluateWith_eq_ok_iff.mp none
    rw [nothing] at joined
    exact Expr.evaluateWith_eq_ok_iff.mpr ⟨all, joined⟩
  · have found := (partsInduction_found functions.give_answer).expr
      (.path absolute (steps ++ more)) (fun _ => Expr.isSome_of_uses all) root start
    exact Expr.evaluateWith_eq_ok_iff.mpr ⟨all, found⟩

theorem path_goes_on_from_each_twice :
    let root : Handle := .plain (Tree.placed ⟨{ name := "a" }, [.named "b", .named "c"]⟩)
    let up : List Step := [.mk .child .any [], .mk .parent .any []]
    let down : List Step := [.mk .child .any [.function "last"]]
    let c : Handle := .plain ((Tree.named "c").placedFrom 2)
    (∀ name ∈ (Expr.path false up).functionNames, Registry.builtins.contains name = true) ∧
      (∀ name ∈ (Expr.path false down).functionNames, Registry.builtins.contains name = true) ∧
      ((Expr.path false up).evaluateFrom .builtins root root).value = .ok [root, root] ∧
      ((Expr.path false down).evaluateFrom .builtins root root).value = .ok [c] ∧
      ((Expr.path false (up ++ down)).evaluateFrom .builtins root root).value = .ok [c, c] := by
  intro root up down c
  have known : ∀ name ∈ (Expr.path false up).functionNames,
      Registry.builtins.contains name = true := by decide
  have known' : ∀ name ∈ (Expr.path false down).functionNames,
      Registry.builtins.contains name = true := by decide
  have first : ((Expr.path false up).evaluateFrom .builtins root root).value =
      .ok [root, root] := by cbv
  have second : ((Expr.path false down).evaluateFrom .builtins root root).value = .ok [c] := rfl
  obtain ⟨⟨reached, results, front, each, whole⟩, -, -⟩ :=
    path_goes_on_from_each .builtins root root false false false up down known known'
  obtain rfl := Except.ok.inj (front.symm.trans first)
  obtain _ | ⟨one, _ | ⟨two, ⟨⟩⟩⟩ := each
  obtain rfl := Except.ok.inj (one.symm.trans second)
  obtain rfl := Except.ok.inj (two.symm.trans second)
  exact ⟨known, known', first, second, whole⟩

end TreeQuery
