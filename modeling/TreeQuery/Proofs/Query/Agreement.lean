import Mathlib.Logic.Relation
import TreeQuery.Proofs.Path.Places
import TreeQuery.Proofs.Path.Rewriting
import TreeQuery.Proofs.Query.Answer

namespace TreeQuery

namespace Expr

def named (e : Expr) : List String := e.predicates.filterMap Predicate.functionName?

end Expr

namespace Step

def named (s : Step) : List String := (Expr.stepPredicates s).filterMap Predicate.functionName?

end Step

namespace Predicate

def named (p : Predicate) : List String := (Expr.withInner p).filterMap functionName?

@[simp] theorem named_nested (e : Expr) : (nested e).named = e.named := rfl

@[simp] theorem named_either (p q : Predicate) : (either p q).named = p.named ++ q.named := by
  rw [named, Expr.withInner]
  exact List.filterMap_append

end Predicate

@[simp] theorem Step.named_mk (axis : Axis) (test : NodeTest) (ps : List Predicate) :
    (Step.mk axis test ps).named = ps.flatMap Predicate.named := by
  rw [named, Expr.stepPredicates, Expr.listPredicates_eq, List.filterMap_flatMap]
  rfl

namespace Expr

@[simp] theorem named_path (absolute : Bool) (steps : List Step) :
    (path absolute steps).named = steps.flatMap Step.named := by
  rw [named, predicates, stepsPredicates_eq, List.filterMap_flatMap]
  rfl

@[simp] theorem named_union (branches : List Expr) :
    (union branches).named = branches.flatMap named := by
  rw [named, predicates, branchesPredicates_eq, List.filterMap_flatMap]
  rfl

theorem missing_eq (e : Expr) (functions : Functions) :
    e.missing functions =
      (e.named.foldl addName []).filter fun name => (functions name).isNone := rfl

theorem mem_missing_iff {e : Expr} {functions : Functions} {name : String} :
    name ∈ e.missing functions ↔ name ∈ e.named ∧ functions name = none := by
  rw [missing_eq, List.mem_filter, Option.isNone_iff_eq_none, mem_foldl_addName]
  simp

theorem missing_eq_nil_iff {e : Expr} {functions : Functions} :
    e.missing functions = [] ↔ ∀ name ∈ e.named, functions name ≠ none := by
  simp [List.eq_nil_iff_forall_not_mem, mem_missing_iff]

end Expr

/-- The two use the same functions, and match the same from every node whatever these do. -/
structure Expr.Agrees (e e' : Expr) : Prop where
  named : ∀ name, name ∈ e.named ↔ name ∈ e'.named
  select : ∀ functions root start,
    (e.select functions root start).value = (e'.select functions root start).value

/-- The two use the same functions, and lead to the same nodes. -/
structure Step.Agrees (s s' : Step) : Prop where
  named : ∀ name, name ∈ s.named ↔ name ∈ s'.named
  take : ∀ functions root current,
    (s.take functions root current).value = (s'.take functions root current).value

/-- The two use the same functions, and hold of the same nodes. -/
structure Predicate.Agrees (p p' : Predicate) : Prop where
  named : ∀ name, name ∈ p.named ↔ name ∈ p'.named
  holds : ∀ functions h candidates root,
    (p.holds functions h candidates root).value = (p'.holds functions h candidates root).value

theorem Expr.Agrees.missing_eq_nil {e e' : Expr} (agree : e.Agrees e') (functions : Functions) :
    e.missing functions = [] ↔ e'.missing functions = [] := by
  simp only [missing_eq_nil_iff, agree.named]

section

variable {rules : Rules}

/-- If the rules replace parts by such as answer alike, so does rewriting by them. -/
theorem congruence_agrees (expr : ∀ e e', rules.expr e e' → e.Agrees e')
    (step : ∀ s s', rules.step s s' → s.Agrees s')
    (predicate : ∀ p p', rules.predicate p p' → p.Agrees p') :
    Congruence rules Expr.Agrees Step.Agrees Predicate.Agrees where
  ruleExpr := expr
  ruleStep := step
  rulePredicate := predicate
  path absolute before after s s' agree := by
    refine ⟨fun name => ?_, fun functions root start => ?_⟩
    · simp [agree.named]
    · simp only [Expr.select_path, List.foldl_append, List.foldl_cons, agree.take]
  union before after e e' agree := by
    refine ⟨fun name => ?_, fun functions root start => ?_⟩
    · simp [agree.named]
    · simp only [Expr.select_union, List.flatMap_append, List.flatMap_cons, agree.select]
  step axis test before after p p' agree := by
    refine ⟨fun name => ?_, fun functions root current => ?_⟩
    · simp [agree.named]
    · simp only [Step.take_value, List.all_append, List.all_cons, agree.holds]
  nested e e' agree := by
    refine ⟨agree.named, fun functions h candidates root => ?_⟩
    have same : (e.missing functions).isEmpty = (e'.missing functions).isEmpty := by
      rw [Bool.eq_iff_iff, List.isEmpty_iff, List.isEmpty_iff, agree.missing_eq_nil]
    rw [Predicate.holds_nested, Predicate.holds_nested, same, agree.select]
  first p p' q agree := by
    refine ⟨fun name => ?_, fun functions h candidates root => ?_⟩
    · simp [agree.named]
    · rw [Predicate.holds_either, Predicate.holds_either, agree.holds]
  second p q q' agree := by
    refine ⟨fun name => ?_, fun functions h candidates root => ?_⟩
    · simp [agree.named]
    · rw [Predicate.holds_either, Predicate.holds_either, agree.holds]

theorem Expr.Agrees.refl (e : Expr) : e.Agrees e := ⟨fun _ => .rfl, fun _ _ _ => rfl⟩

theorem Expr.Agrees.trans {e f g : Expr} (first : e.Agrees f) (second : f.Agrees g) :
    e.Agrees g where
  named name := (first.named name).trans (second.named name)
  select functions root start :=
    (first.select functions root start).trans (second.select functions root start)

/-- Rewriting may go on, at any number of places. -/
theorem Expr.Agrees.of_rewritten (agree : Congruence rules Expr.Agrees Step.Agrees Predicate.Agrees)
    {e e' : Expr} (rewritten : Relation.ReflTransGen (Expr.Rewrites rules) e e') : e.Agrees e' := by
  induction rewritten with
  | refl => exact .refl e
  | tail _ next ih => exact ih.trans (agree.expr next)

/-- If the rules keep the order in which functions are named, so does rewriting by them. -/
theorem congruence_named (expr : ∀ e e', rules.expr e e' → e.named = e'.named)
    (step : ∀ s s', rules.step s s' → s.named = s'.named)
    (predicate : ∀ p p', rules.predicate p p' → p.named = p'.named) :
    Congruence rules (fun e e' => e.named = e'.named) (fun s s' => s.named = s'.named)
      (fun p p' => p.named = p'.named) where
  ruleExpr := expr
  ruleStep := step
  rulePredicate := predicate
  path _ _ _ _ _ same := by simp [same]
  union _ _ _ _ same := by simp [same]
  step _ _ _ _ _ _ same := by simp [same]
  nested _ _ same := same
  first _ _ _ same := by simp [same]
  second _ _ _ same := by simp [same]

end

/-- Expressions that answer alike and name their functions in one order have the same outcome, failed
or not. -/
theorem Expr.Agrees.evaluateWith {e e' : Expr} (agree : e.Agrees e') (same : e.named = e'.named)
    (functions : Functions) (root start : Handle) :
    (e.evaluateWith functions root start).value = (e'.evaluateWith functions root start).value := by
  have missing : e.missing functions = e'.missing functions := by
    rw [Expr.missing_eq, Expr.missing_eq, same]
  rw [Expr.evaluateWith_value, Expr.evaluateWith_value, missing, agree.select]

end TreeQuery
