import Mathlib.Data.List.Basic
import TreeQuery.Proofs.Path.Places
import TreeQuery.Proofs.Query.Answer

namespace TreeQuery

theorem partsInduction_predicates (c : Criteria) :
    PartsInduction
      (fun e => ∀ inside, e.meets c inside → ∀ p ∈ e.predicates, c.predicate p)
      (fun s => ∀ inside, s.meets c inside → ∀ p ∈ Expr.stepPredicates s, c.predicate p)
      (fun p => ∀ inside, p.meets c inside → ∀ q ∈ Expr.withInner p, c.predicate q) where
  path absolute steps ih := by
    intro inside h p hp
    have parts := (Expr.meets_path .. |>.mp h).2
    rw [Expr.predicates, Expr.stepsPredicates_eq] at hp
    obtain ⟨s, hs, hp⟩ := List.mem_flatMap.mp hp
    exact ih s hs inside (parts s hs) p hp
  union branches ih := by
    intro inside h p hp
    have parts := (Expr.meets_union .. |>.mp h).2
    rw [Expr.predicates, Expr.branchesPredicates_eq] at hp
    obtain ⟨e, he, hp⟩ := List.mem_flatMap.mp hp
    exact ih e he inside (parts e he) p hp
  step axis test predicates ih := by
    intro inside h p hp
    have parts := (Step.meets_mk .. |>.mp h).2
    rw [Expr.stepPredicates, Expr.listPredicates_eq] at hp
    obtain ⟨q, hq, hp⟩ := List.mem_flatMap.mp hp
    exact ih q hq inside (parts q hq) p hp
  attributes name value := by
    intro inside h q hq
    rw [Expr.withInner, List.mem_singleton] at hq
    exact hq ▸ h
  position number := by
    intro inside h q hq
    rw [Expr.withInner, List.mem_singleton] at hq
    exact hq ▸ h
  nested e ih := by
    intro inside h q hq
    obtain ⟨own, inner⟩ := Predicate.meets_nested .. |>.mp h
    rw [Expr.withInner] at hq
    rcases List.mem_cons.mp hq with rfl | hq
    · exact own
    · exact ih true inner q hq
  function name := by
    intro inside h q hq
    rw [Expr.withInner, List.mem_singleton] at hq
    exact hq ▸ h
  either p q ihp ihq := by
    intro inside h r hr
    obtain ⟨own, hp, hq⟩ := Predicate.meets_either .. |>.mp h
    rw [Expr.withInner] at hr
    rcases List.mem_cons.mp hr with rfl | hr
    · exact own
    · rcases List.mem_append.mp hr with hr | hr
      · exact ihp inside hp r hr
      · exact ihq inside hq r hr

theorem mem_functionNames {e : Expr} {name : String} (h : name ∈ e.functionNames) :
    .function name ∈ e.predicates := by
  rw [Expr.functionNames_eq, Expr.mem_foldl_addName] at h
  obtain ⟨p, hp, named⟩ := List.mem_filterMap.mp (h.resolve_left List.not_mem_nil)
  exact Predicate.functionName?_eq_some_iff.mp named ▸ hp

/-- What is asked of all parts of an expression is asked of the functions it names. -/
theorem Criteria.function_of_named {c : Criteria} {inside : Bool} {e : Expr} (h : e.meets c inside)
    {name : String} (named : name ∈ e.functionNames) : c.predicate (.function name) :=
  (partsInduction_predicates c).expr e inside h _ (mem_functionNames named)

/-- A way to move handles so that evaluations with `F` become evaluations with `G`. -/
structure Transfer (c : Criteria) (F G : Functions) where
  move : Handle → Handle
  /-- Which nodes there can be under which root, inside a predicate or not. -/
  scope : (inside : Bool) → (root h : Handle) → Prop
  place : ∀ h k, (move h).place = (move k).place ↔ h.place = k.place
  name : ∀ h, (move h).name = h.name
  property : ∀ h name value, c.predicate (.attribute name value) →
    (move h).property? name = h.property? name
  follow : ∀ inside root h axis test ps, c.step inside (.mk axis test ps) → scope inside root h →
    axis.follow (move h) (move root) = (axis.follow h root).map move ∧
      ∀ k ∈ axis.follow h root, scope inside root k
  enter : ∀ inside root h, scope inside root h → scope true h h
  known : ∀ name, c.predicate (.function name) → (G name).isNone = (F name).isNone
  answer : ∀ inside root h candidates name, c.predicate (.function name) → scope inside root h →
    (∀ k ∈ candidates, scope inside root k) →
    G.answer name (move h) (candidates.map move) (move root) = F.answer name h candidates root

namespace Transfer

variable {c : Criteria} {F G : Functions} (m : Transfer c F G)

theorem missing (m : Transfer c F G) {inside : Bool} {e : Expr} (h : e.meets c inside) :
    e.missing G = e.missing F := by
  apply List.filter_congr
  intro name named
  exact m.known name (Criteria.function_of_named h named)

theorem isAtPosition_map (number : Nat) (h : Handle) (candidates : List Handle) :
    isAtPosition number (m.move h) (candidates.map m.move) = isAtPosition number h candidates := by
  have same : (fun k => m.move k == m.move h) = fun k => k == h := by
    funext k
    exact Bool.eq_iff_iff.mpr (by rw [Handle.beq_iff, Handle.beq_iff, m.place])
  rw [isAtPosition, isAtPosition, List.findIdx?_map]
  exact congrArg (fun test => candidates.findIdx? test == _) same

/-- Every part of an expression answers the moved handles as it answers the handles. -/
theorem partsInduction_select (m : Transfer c F G) :
    PartsInduction
      (fun e => ∀ inside root h, e.meets c inside → m.scope inside root h →
        (e.select G (m.move root) (m.move h)).value = (e.select F root h).value.map m.move ∧
          ∀ k ∈ (e.select F root h).value, m.scope inside root k)
      (fun s => ∀ inside root current, s.meets c inside → (∀ h ∈ current, m.scope inside root h) →
        (s.take G (m.move root) (current.map m.move)).value =
            (s.take F root current).value.map m.move ∧
          ∀ k ∈ (s.take F root current).value, m.scope inside root k)
      (fun p => ∀ inside root h candidates, p.meets c inside → m.scope inside root h →
        (∀ k ∈ candidates, m.scope inside root k) →
        (p.holds G (m.move h) (candidates.map m.move) (m.move root)).value =
          (p.holds F h candidates root).value) where
  path absolute steps ih := by
    intro inside root h meets start
    have parts := (Expr.meets_path .. |>.mp meets).2
    rw [Expr.select_path, Expr.select_path]
    have go : ∀ current : List Handle, (∀ k ∈ current, m.scope inside root k) →
        steps.foldl (fun current s => (s.take G (m.move root) current).value)
            (current.map m.move) =
          (steps.foldl (fun current s => (s.take F root current).value) current).map m.move ∧
        ∀ k ∈ steps.foldl (fun current s => (s.take F root current).value) current,
          m.scope inside root k := by
      clear meets
      induction steps with
      | nil => exact fun current all => ⟨rfl, all⟩
      | cons s ss more =>
        intro current all
        obtain ⟨next, inScope⟩ := ih s (by simp) inside root current (parts s (by simp)) all
        rw [List.foldl_cons, List.foldl_cons, next]
        exact more (fun t ht => ih t (by simp [ht])) (fun t ht => parts t (by simp [ht])) _ inScope
    exact go [h] (by simpa using start)
  union branches ih := by
    intro inside root h meets start
    have parts := (Expr.meets_union .. |>.mp meets).2
    have moved : (branches.flatMap fun e => (e.select G (m.move root) (m.move h)).value) =
        (branches.flatMap fun e => (e.select F root h).value).map m.move := by
      rw [List.map_flatMap]
      apply List.flatMap_congr
      intro e he
      exact (ih e he inside root h (parts e he) start).1
    rw [Expr.select_union, Expr.select_union, moved, Handle.distinct_map m.move m.place]
    refine ⟨rfl, fun k hk => ?_⟩
    obtain ⟨e, he, hk⟩ := List.mem_flatMap.mp (Handle.distinct_subset _ k hk)
    exact (ih e he inside root h (parts e he) start).2 k hk
  step axis test predicates ih := by
    intro inside root current meets all
    obtain ⟨own, parts⟩ := Step.meets_mk .. |>.mp meets
    have candidates : ∀ h ∈ current,
        candidatesOf axis test (m.move h) (m.move root) =
            (candidatesOf axis test h root).map m.move ∧
          ∀ k ∈ candidatesOf axis test h root, m.scope inside root k := by
      intro h hh
      obtain ⟨follow, inScope⟩ := m.follow inside root h axis test predicates own (all h hh)
      refine ⟨?_, fun k hk => inScope k (List.mem_filter.mp hk).1⟩
      rw [candidatesOf, candidatesOf, follow, List.filter_map]
      congr 1
      apply List.filter_congr
      intro k _
      rw [Function.comp_apply, m.name]
    rw [Step.take_value, Step.take_value, List.flatMap_map, List.map_flatMap]
    constructor
    · apply List.flatMap_congr
      intro h hh
      obtain ⟨moved, inScope⟩ := candidates h hh
      rw [moved, List.filter_map]
      congr 1
      apply List.filter_congr
      intro k hk
      rw [Function.comp_apply, Bool.eq_iff_iff, List.all_eq_true, List.all_eq_true]
      refine forall₂_congr fun p hp => ?_
      rw [ih p hp inside root k _ (parts p hp) (inScope k hk) inScope]
    · intro k hk
      obtain ⟨h, hh, hk⟩ := List.mem_flatMap.mp hk
      exact (candidates h hh).2 k (List.mem_filter.mp hk).1
  attributes name value := by
    intro inside root h candidates meets _ _
    rw [Predicate.holds_attribute, Predicate.holds_attribute, m.property h name value meets]
  position number := by
    intro inside root h candidates _ _ _
    rw [Predicate.holds_position, Predicate.holds_position, m.isAtPosition_map]
  nested e ih := by
    intro inside root h candidates meets start _
    have inner := (Predicate.meets_nested .. |>.mp meets).2
    rw [Predicate.holds_nested, Predicate.holds_nested, m.missing inner,
      (ih true h h inner (m.enter inside root h start)).1, List.isEmpty_map]
  function name := by
    intro inside root h candidates meets start all
    rw [Predicate.holds_function, Predicate.holds_function,
      m.answer inside root h candidates name meets start all]
  either p q ihp ihq := by
    intro inside root h candidates meets start all
    obtain ⟨-, hp, hq⟩ := Predicate.meets_either .. |>.mp meets
    rw [Predicate.holds_either, Predicate.holds_either,
      ihp inside root h candidates hp start all, ihq inside root h candidates hq start all]

/-- The whole outcome moves: the same error, or the same matches in the same order. -/
theorem evaluateWith {inside : Bool} {root h : Handle} {e : Expr} (meets : e.meets c inside)
    (start : m.scope inside root h) :
    (e.evaluateWith G (m.move root) (m.move h)).value =
      (e.evaluateWith F root h).value.map (List.map m.move) := by
  rw [Expr.evaluateWith_value, Expr.evaluateWith_value, m.missing meets]
  split
  · rw [(m.partsInduction_select.expr e inside root h meets start).1]
    rfl
  · rfl

/-- Whether a nested expression holds of a node depends neither on the other candidates nor on the
root. -/
theorem holds_nested {h : Handle} {e : Expr} (meets : e.meets c true) (start : m.scope true h h)
    (candidates candidates' : List Handle) (root root' : Handle) :
    (Predicate.holds G (.nested e) (m.move h) candidates' root').value =
      (Predicate.holds F (.nested e) h candidates root).value := by
  rw [Predicate.holds_nested, Predicate.holds_nested, m.missing meets,
    (m.partsInduction_select.expr e true h h meets start).1, List.isEmpty_map]

end Transfer

end TreeQuery
