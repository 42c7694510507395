import TreeQuery.Proofs.Query.Unchecked
import TreeQuery.Proofs.Query.Union

namespace TreeQuery

/-- A step gets its predicates in another order, or one of them once more. -/
inductive Step.Reorders : Step → Step → Prop
  | permuted (axis : Axis) (test : NodeTest) {ps ps' : List Predicate} (perm : ps.Perm ps') :
    Reorders (.mk axis test ps) (.mk axis test ps')
  | repeated (axis : Axis) (test : NodeTest) {p : Predicate} {ps : List Predicate} (mem : p ∈ ps) :
    Reorders (.mk axis test ps) (.mk axis test (p :: ps))

/-- Reordering of predicates, one step at a time. -/
def Rules.reordering : Rules := { step := Step.Reorders }

namespace Step

/-- Which predicates a step has is all that matters. -/
theorem agrees_of_mem_iff {axis : Axis} {test : NodeTest} {ps ps' : List Predicate}
    (same : ∀ p, p ∈ ps ↔ p ∈ ps') : (mk axis test ps).Agrees (mk axis test ps') where
  named name := by simp only [named_mk, List.mem_flatMap, same]
  take functions root current := by
    have all : ∀ holds : Predicate → Bool, ps.all holds = ps'.all holds := by
      intro holds
      rw [Bool.eq_iff_iff, List.all_eq_true, List.all_eq_true]
      simp only [same]
    simp only [take_value, all]

theorem Reorders.agrees {s s' : Step} (h : Reorders s s') : s.Agrees s' := by
  cases h with
  | permuted axis test perm => exact agrees_of_mem_iff fun p => perm.mem_iff
  | @repeated axis test p ps mem =>
    refine agrees_of_mem_iff fun q => ?_
    rw [List.mem_cons]
    exact ⟨.inr, fun or => or.elim (fun same => same ▸ mem) id⟩

end Step

theorem reordering_agrees :
    Congruence .reordering Expr.Agrees Step.Agrees Predicate.Agrees :=
  congruence_agrees nofun (fun _ _ => Step.Reorders.agrees) nofun

namespace Expr

/-- Expressions that answer alike succeed alike, with the same matches. -/
theorem Agrees.evaluateWith_eq_ok_iff {e e' : Expr} (agree : e.Agrees e') (functions : Functions)
    (root start : Handle) (matched : List Handle) :
    (e.evaluateWith functions root start).value = .ok matched ↔
      (e'.evaluateWith functions root start).value = .ok matched := by
  rw [Expr.evaluateWith_eq_ok_iff, Expr.evaluateWith_eq_ok_iff, agree.missing_eq_nil, agree.select]

end Expr

/-- If predicates are put in another order or repeated, in any steps of an expression and as often as one
likes, it succeeds just as before: with the same nodes, in the same order and as often. If all functions
are there, it does succeed. -/
theorem predicates_in_any_order (registry : Registry) (root start : Handle) {e e' : Expr}
    (reordered : Relation.ReflTransGen (Expr.Rewrites .reordering) e e') :
    (∀ matched, (e.evaluateFrom registry root start).value = .ok matched ↔
      (e'.evaluateFrom registry root start).value = .ok matched) ∧
    ((∀ name ∈ e.functionNames, registry.contains name = true) →
      ∃ matched, (e.evaluateFrom registry root start).value = .ok matched ∧
        (e'.evaluateFrom registry root start).value = .ok matched) := by
  have agree := Expr.Agrees.of_rewritten reordering_agrees reordered
  have alike := agree.evaluateWith_eq_ok_iff registry.functions root start
  refine ⟨alike, fun known => ?_⟩
  let matched := (e.select registry.functions root start).value
  have found : (e.evaluateFrom registry root start).value = .ok matched :=
    Expr.evaluateWith_eq_ok_iff.mpr ⟨Registry.missing_eq_nil known, rfl⟩
  exact ⟨matched, found, (alike matched).mp found⟩

theorem predicates_in_any_order_nested :
    let x : Predicate := .attribute "value" "x"
    let last : Predicate := .function "last"
    let children (ps : List Predicate) : Expr := .path false [.mk .child .any ps]
    let e := children [.nested (children [last, x]), .position 2]
    let e' := children [.position 2, .nested (children [x, last, last])]
    let leaf (value : String) : Tree Label := ⟨{ name := "d", value := some value }, []⟩
    let b : Tree Label := ⟨{ name := "b" }, [leaf "x"]⟩
    let c : Tree Label := ⟨{ name := "c" }, [leaf "y", leaf "x"]⟩
    let root : Handle := .plain (Tree.placed ⟨{ name := "a" }, [b, c]⟩)
    Relation.ReflTransGen (Expr.Rewrites .reordering) e e' ∧
      (∀ name ∈ e.functionNames, Registry.builtins.contains name = true) ∧
      (e.evaluateFrom .builtins root root).value = .ok [.plain (c.placedFrom 3)] ∧
      (e'.evaluateFrom .builtins root root).value = .ok [.plain (c.placedFrom 3)] := by
  intro x last children e e' leaf b c root
  have inside {ps ps' : List Predicate}
      (h : Step.Reorders (.mk .child .any ps) (.mk .child .any ps')) :
      Expr.Rewrites .reordering (children [.nested (children ps), .position 2])
        (children [.nested (children ps'), .position 2]) :=
    .path false [] [] (.step .child .any [] [.position 2] (.nested (.path false [] [] (.rule h))))
  have turned : ([last, last] ++ [x]).Perm ([x] ++ [last, last]) := List.perm_append_comm
  have reordered : Relation.ReflTransGen (Expr.Rewrites .reordering) e e' := by
    refine .head (inside (.repeated .child .any List.mem_cons_self)) ?_
    refine .head (inside (.permuted .child .any turned)) (.single ?_)
    exact .path false [] [] (.rule (.permuted .child .any (.swap _ _ _)))
  have known : ∀ name ∈ e.functionNames, Registry.builtins.contains name = true := by decide
  have found : (e.evaluateFrom .builtins root root).value = .ok [.plain (c.placedFrom 3)] := rfl
  obtain ⟨-, succeeds⟩ := predicates_in_any_order .builtins root root reordered
  obtain ⟨matched, before, after⟩ := succeeds known
  obtain rfl := Except.ok.inj (before.symm.trans found)
  exact ⟨reordered, known, before, after⟩

end TreeQuery
