import TreeQuery.Proofs.Tree.Below
import TreeQuery.Query.Evaluation

namespace TreeQuery

namespace Handle

/-- Adds a handle behind others unless its node is among theirs. -/
def keep (found : List Handle) (h : Handle) : List Handle :=
  if h.place ∈ found.map place then found else found ++ [h]

theorem distinct_eq (hs : List Handle) : distinct hs = hs.foldl keep [] := by
  have go : ∀ (hs : List Handle) (found : Array Handle) (seen : Std.TreeSet Nat),
      (∀ p, seen.contains p = true ↔ p ∈ found.toList.map place) →
      (hs.foldl (fun state h =>
        if state.2.contains h.place then state
        else (state.1.push h, state.2.insert h.place)) (found, seen)).1.toList =
      hs.foldl keep found.toList := by
    intro hs
    induction hs with
    | nil =>
      intro found seen _
      rfl
    | cons h hs ih =>
      intro found seen known
      rw [List.foldl_cons, List.foldl_cons, keep]
      dsimp only
      by_cases before : seen.contains h.place = true
      · rw [if_pos before, if_pos ((known _).mp before)]
        exact ih found seen known
      · rw [if_neg before, if_neg fun mem => before ((known _).mpr mem), ih, Array.toList_push]
        intro p
        rw [Std.TreeSet.contains_insert, Bool.or_eq_true, known, Array.toList_push,
          List.map_append, List.mem_append, or_comm, beq_iff_eq, Std.compare_eq_iff_eq, eq_comm]
        simp
  exact go hs #[] ∅ (by simp)

theorem distinct_subset (hs : List Handle) : ∀ h ∈ distinct hs, h ∈ hs := by
  have go : ∀ found : List Handle, ∀ h ∈ hs.foldl keep found, h ∈ found ∨ h ∈ hs := by
    induction hs with
    | nil => exact fun _ _ => .inl
    | cons k hs ih =>
      intro found h hh
      rcases ih _ h hh with hh | hh
      · rw [keep] at hh
        split at hh
        · exact .inl hh
        · rcases List.mem_append.mp hh with hh | hh
          · exact .inl hh
          · exact .inr (List.mem_cons.mpr (.inl (List.mem_singleton.mp hh)))
      · exact .inr (List.mem_cons_of_mem k hh)
  intro h hh
  rw [distinct_eq] at hh
  exact (go [] h hh).resolve_left List.not_mem_nil

/-- Nothing but the places decides which handles are dropped. -/
theorem distinct_map (f : Handle → Handle)
    (same : ∀ h k : Handle, (f h).place = (f k).place ↔ h.place = k.place) (hs : List Handle) :
    distinct (hs.map f) = (distinct hs).map f := by
  have step : ∀ (found : List Handle) (h : Handle),
      keep (found.map f) (f h) = (keep found h).map f := by
    intro found h
    have mem : (f h).place ∈ (found.map f).map place ↔ h.place ∈ found.map place := by
      simp [List.mem_map, same]
    unfold keep
    by_cases before : h.place ∈ found.map place
    · rw [if_pos before, if_pos (mem.mpr before)]
    · rw [if_neg before, if_neg (mt mem.mp before), List.map_append]
      rfl
  have go : ∀ found : List Handle,
      (hs.map f).foldl keep (found.map f) = (hs.foldl keep found).map f := by
    induction hs with
    | nil => exact fun _ => rfl
    | cons k hs ih =>
      intro found
      rw [List.map_cons, List.foldl_cons, step, ih, List.foldl_cons]
  rw [distinct_eq, distinct_eq]
  exact go []

end Handle

/-- The functions of a registry, each of which asks what it has to ask of `inner`. -/
def Registry.running (registry : Registry) (inner : Functions) : Functions := fun name =>
  (registry.get? name).map fun function node candidates root =>
    (function node candidates root).run inner

theorem Registry.functionsWithin_succ (registry : Registry) (depth : Nat) :
    registry.functionsWithin (depth + 1) = registry.running (registry.functionsWithin depth) :=
  rfl

/-- What a function answers, `false` if it is missing. -/
def Functions.answer (functions : Functions) (name : String) (node : Handle)
    (candidates : List Handle) (root : Handle) : Bool :=
  ((functions name).map fun function => (function node candidates root).value).getD false

section

variable (functions : Functions) (root start h : Handle) (candidates current : List Handle)

theorem Expr.selectAll_value (branches : List Expr) :
    (Expr.selectAll functions branches root start).value =
      branches.flatMap fun e => (e.select functions root start).value := by
  induction branches with
  | nil => rfl
  | cons e branches ih =>
    rw [Expr.selectAll, Trace.bind_value, Trace.bind_value, Trace.pure_value, ih,
      List.flatMap_cons]

theorem Expr.select_union (branches : List Expr) :
    (Expr.select functions (.union branches) root start).value =
      Handle.distinct (branches.flatMap fun e => (e.select functions root start).value) := by
  rw [Expr.select, Trace.bind_value, Trace.bind_value, Trace.pure_value, Expr.selectAll_value]

/-- The candidates of a step from one node. -/
def candidatesOf (axis : Axis) (test : NodeTest) (h root : Handle) : List Handle :=
  (axis.follow h root).filter fun c => test.accepts c.name

theorem Predicate.holdAll_value (ps : List Predicate) :
    (Predicate.holdAll functions ps h candidates root).value =
      ps.all fun p => (p.holds functions h candidates root).value := by
  induction ps with
  | nil => rfl
  | cons p ps ih =>
    rw [Predicate.holdAll, Trace.bind_value, List.all_cons]
    cases (p.holds functions h candidates root).value with
    | true => rw [if_pos rfl, ih, Bool.true_and]
    | false => rfl

theorem Step.take_value (axis : Axis) (test : NodeTest) (ps : List Predicate) :
    (Step.take functions (.mk axis test ps) root current).value = current.flatMap fun h =>
      (candidatesOf axis test h root).filter fun c =>
        ps.all fun p => (p.holds functions c (candidatesOf axis test h root) root).value := by
  rw [Step.take, Trace.flatMap_value]
  congr 1
  funext h
  rw [Trace.filter_value]
  congr 1
  funext c
  exact Predicate.holdAll_value functions root c _ ps

/-- A step finds from several nodes what it finds from each of them in turn. -/
theorem Step.take_eq_flatMap (s : Step) :
    (s.take functions root current).value =
      current.flatMap fun h => (s.take functions root [h]).value := by
  obtain ⟨axis, test, ps⟩ := s
  simp only [Step.take_value, List.flatMap_singleton]

/-- Stopping early where no node is left changes nothing. -/
theorem Step.takeAll_value (steps : List Step) :
    (Step.takeAll functions steps root current).value =
      steps.foldl (fun current s => (s.take functions root current).value) current := by
  induction steps generalizing current with
  | nil => rfl
  | cons s steps ih =>
    rw [Step.takeAll, List.foldl_cons, ← ih]
    cases current with
    | nil =>
      obtain ⟨axis, test, ps⟩ := s
      have none : (Step.take functions (.mk axis test ps) root []).value = [] := by
        rw [Step.take_value, List.flatMap_nil]
      rw [none]
      cases steps <;> rfl
    | cons h current => rfl

theorem Expr.select_path (absolute : Bool) (steps : List Step) :
    (Expr.select functions (.path absolute steps) root start).value =
      steps.foldl (fun current s => (s.take functions root current).value) [start] := by
  rw [Expr.select, Step.takeAll_value]

@[simp] theorem Predicate.holds_attribute (name value : String) :
    (Predicate.holds functions (.attribute name value) h candidates root).value =
      (h.property? name == some value) := by
  rw [Predicate.holds]
  rfl

@[simp] theorem Predicate.holds_position (number : Nat) :
    (Predicate.holds functions (.position number) h candidates root).value =
      isAtPosition number h candidates := by
  rw [Predicate.holds]
  rfl

@[simp] theorem Predicate.holds_nested (e : Expr) :
    (Predicate.holds functions (.nested e) h candidates root).value =
      ((e.missing functions).isEmpty && !(e.select functions h h).value.isEmpty) := by
  rw [Predicate.holds]
  cases e.missing functions with
  | nil => rfl
  | cons name names => rfl

@[simp] theorem Predicate.holds_function (name : String) :
    (Predicate.holds functions (.function name) h candidates root).value =
      functions.answer name h candidates root := by
  rw [Predicate.holds, Functions.answer, Functions.call?]
  cases functions name with
  | none => rfl
  | some function => rfl

@[simp] theorem Predicate.holds_either (p q : Predicate) :
    (Predicate.holds functions (.either p q) h candidates root).value =
      ((p.holds functions h candidates root).value ||
        (q.holds functions h candidates root).value) := by
  rw [Predicate.holds, Trace.bind_value]
  cases (p.holds functions h candidates root).value <;> rfl

theorem Expr.evaluateWith_value (e : Expr) :
    (e.evaluateWith functions root start).value =
      if e.missing functions = [] then .ok (e.select functions root start).value
      else .error (.missingFunctions (e.missing functions)) := by
  rw [Expr.evaluateWith]
  cases e.missing functions with
  | nil => rfl
  | cons name names => rfl

end

end TreeQuery
