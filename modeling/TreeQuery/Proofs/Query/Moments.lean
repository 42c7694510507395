import TreeQuery.Proofs.Path.Places
import TreeQuery.Proofs.Query.Quiet

namespace TreeQuery

/-- A call of a function by its name. -/
structure Invocation where
  name : String
  node : Handle
  candidates : List Handle
  root : Handle

def Event.invocation? : Event → Option Invocation
  | .called name node candidates root => some ⟨name, node, candidates, root⟩
  | _ => none

/-- The calls on the way to an answer, in order. -/
def Trace.calls {α : Type} (x : Trace α) : List Invocation :=
  x.events.toList.filterMap Event.invocation?

namespace Trace

variable {α β : Type}

@[simp] theorem calls_pure (a : α) : (pure a : Trace α).calls = [] := rfl

@[simp] theorem calls_bind (x : Trace α) (f : α → Trace β) :
    (x >>= f).calls = x.calls ++ (f x.value).calls := by
  rw [calls, bind_events, Array.toList_append, List.filterMap_append]
  rfl

theorem calls_emit (event : Event) : (emit event).calls = event.invocation?.toList := by
  rw [calls, emit, List.filterMap_cons]
  cases event.invocation? <;> rfl

theorem calls_filter (test : α → Trace Bool) (xs : List α) :
    (filter test xs).calls = xs.flatMap fun x => (test x).calls := by
  rw [calls, filter_events, List.filterMap_flatMap]
  rfl

theorem calls_flatMap (f : α → Trace (List β)) (xs : List α) :
    (flatMap f xs).calls = xs.flatMap fun x => (f x).calls := by
  rw [calls, flatMap_events, List.filterMap_flatMap]
  rfl

end Trace

/-- A call together with the calls that the called function makes in turn. -/
def Functions.callsOf (functions : Functions) (call : Invocation) : List Invocation :=
  call :: ((functions call.name).map fun function =>
    (function call.node call.candidates call.root).calls).getD []

theorem Functions.calls_call? {functions : Functions} {name : String} {node : Handle}
    {candidates : List Handle} {root : Handle} {answer : Trace Bool}
    (called : functions.call? name node candidates root = some answer) :
    answer.calls = functions.callsOf ⟨name, node, candidates, root⟩ := by
  obtain ⟨f, found, rfl⟩ := Option.map_eq_some_iff.mp called
  rw [callsOf, found, Trace.calls_bind, Trace.calls_emit]
  rfl

section

variable (functions : Functions)

/-- The steps of a path, each with the nodes that it is taken from. -/
def Step.stages (root : Handle) : List Step → (current : List Handle) → List (Step × List Handle)
  | [], _ => []
  | s :: steps, current =>
    (s, current) :: Step.stages root steps (s.take functions root current).value

/-- The predicates that are tested of a candidate: all up to the first that does not hold. -/
def Predicate.tested (h : Handle) (candidates : List Handle) (root : Handle) :
    List Predicate → List Predicate
  | [] => []
  | p :: ps =>
    if (p.holds functions h candidates root).value then p :: tested h candidates root ps else [p]

mutual
/-- The call that is made at a moment of an evaluation. -/
def Expr.callAt? : List Nat → Expr → (root start : Handle) → Option Invocation
  | [], _, _, _ => none
  | i :: moment, .path _ steps, root, start =>
    (Step.stages functions root steps [start])[i]?.bind fun stage =>
      Step.callAt? moment stage.1 root stage.2
  | i :: moment, .union branches, root, start =>
    branches[i]?.bind fun e => Expr.callAt? moment e root start
/-- Three numbers lead to a predicate: those of the node, the candidate and the predicate. -/
def Step.callAt? : List Nat → Step → (root : Handle) → (current : List Handle) → Option Invocation
  | i :: j :: k :: moment, .mk axis test predicates, root, current =>
    current[i]?.bind fun h =>
      let candidates := candidatesOf axis test h root
      candidates[j]?.bind fun c =>
        (Predicate.tested functions c candidates root predicates)[k]?.bind fun p =>
          Predicate.callAt? moment p c candidates root
  | _, _, _, _ => none
/-- A nested expression goes on with the candidate as its root. The second of two alternatives is only
tested if the first does not hold. -/
def Predicate.callAt? : List Nat → Predicate → Handle → (candidates : List Handle) →
    (root : Handle) → Option Invocation
  | [], .function name, h, candidates, root => some ⟨name, h, candidates, root⟩
  | 0 :: moment, .nested e, h, _, _ => Expr.callAt? moment e h h
  | 0 :: moment, .either p _, h, candidates, root => Predicate.callAt? moment p h candidates root
  | 1 :: moment, .either p q, h, candidates, root =>
    if (p.holds functions h candidates root).value then none
    else Predicate.callAt? moment q h candidates root
  | _, _, _, _, _ => none
end

/-- The alternatives that are tested: the second one only if the first does not hold. -/
def Predicate.alternatives (h : Handle) (candidates : List Handle) (root : Handle)
    (p q : Predicate) : List Predicate :=
  if (p.holds functions h candidates root).value then [p] else [p, q]

section

variable (moment : List Nat) (h : Handle) (candidates : List Handle) (root : Handle)

@[simp] theorem Predicate.callAt?_attribute (name value : String) :
    callAt? functions moment (.attribute name value) h candidates root = none := by
  rcases moment with _ | ⟨_ | _ | i, moment⟩ <;> rfl

@[simp] theorem Predicate.callAt?_position (number : Nat) :
    callAt? functions moment (.position number) h candidates root = none := by
  rcases moment with _ | ⟨_ | _ | i, moment⟩ <;> rfl

theorem Predicate.callAt?_function (name : String) :
    callAt? functions moment (.function name) h candidates root =
      if moment = [] then some ⟨name, h, candidates, root⟩ else none := by
  rcases moment with _ | ⟨_ | _ | i, moment⟩ <;> rfl

theorem Predicate.callAt?_nested (e : Expr) :
    callAt? functions moment (.nested e) h candidates root =
      InOrder.findIn (fun moment e => e.callAt? functions moment h h) [e] moment := by
  rcases moment with _ | ⟨_ | _ | i, moment⟩ <;> rfl

theorem Predicate.callAt?_either (p q : Predicate) :
    callAt? functions moment (.either p q) h candidates root =
      InOrder.findIn (fun moment r => r.callAt? functions moment h candidates root)
        (alternatives functions h candidates root p q) moment := by
  unfold alternatives
  rcases moment with _ | ⟨_ | _ | i, moment⟩ <;>
    by_cases holds : (p.holds functions h candidates root).value <;>
    simp [callAt?, InOrder.findIn, holds]

theorem Step.callAt?_mk (current : List Handle) (axis : Axis) (test : NodeTest)
    (ps : List Predicate) :
    callAt? functions moment (.mk axis test ps) root current =
      InOrder.findIn (fun moment h =>
        InOrder.findIn (fun moment c =>
          InOrder.findIn (fun moment p =>
              p.callAt? functions moment c (candidatesOf axis test h root) root)
            (Predicate.tested functions c (candidatesOf axis test h root) root ps) moment)
          (candidatesOf axis test h root) moment) current moment := by
  match moment with
  | [] => rfl
  | [i] => simp [callAt?, InOrder.findIn]
  | [i, j] => simp [callAt?, InOrder.findIn]
  | i :: j :: k :: moment => rfl

theorem Expr.callAt?_path (start : Handle) (absolute : Bool) (steps : List Step) :
    callAt? functions moment (.path absolute steps) root start =
      InOrder.findIn (fun moment stage => stage.1.callAt? functions moment root stage.2)
        (Step.stages functions root steps [start]) moment := by
  cases moment <;> rfl

theorem Expr.callAt?_union (start : Handle) (branches : List Expr) :
    callAt? functions moment (.union branches) root start =
      InOrder.findIn (fun moment e => e.callAt? functions moment root start) branches moment := by
  cases moment <;> rfl

end

variable {functions}

theorem Step.mem_of_mem_stages {root : Handle} {steps : List Step} {current : List Handle}
    {stage : Step × List Handle} (h : stage ∈ stages functions root steps current) :
    stage.1 ∈ steps := by
  induction steps generalizing current with
  | nil => cases h
  | cons s steps ih =>
    rcases List.mem_cons.mp h with rfl | h
    · exact List.mem_cons_self
    · exact List.mem_cons_of_mem s (ih h)

theorem Predicate.tested_subset {h : Handle} {candidates : List Handle} {root : Handle}
    (ps : List Predicate) : tested functions h candidates root ps ⊆ ps := by
  induction ps with
  | nil => exact fun _ => id
  | cons p ps ih =>
    rw [tested]
    split
    · exact List.cons_subset_cons p ih
    · exact List.cons_subset_cons p (List.nil_subset ps)

theorem Predicate.mem_alternatives {h : Handle} {candidates : List Handle} {root : Handle}
    {p q r : Predicate} (mem : r ∈ alternatives functions h candidates root p q) :
    r = p ∨ r = q ∧ (p.holds functions h candidates root).value = false := by
  unfold alternatives at mem
  split at mem
  · exact .inl (List.mem_singleton.mp mem)
  · rename_i fails
    rcases List.mem_cons.mp mem with same | mem
    · exact .inl same
    · exact .inr ⟨List.mem_singleton.mp mem, Bool.eq_false_iff.mpr fails⟩

/-- Stopping where no node is left drops no calls. -/
theorem Step.calls_takeAll (steps : List Step) (root : Handle) (current : List Handle) :
    (takeAll functions steps root current).calls =
      (stages functions root steps current).flatMap fun stage =>
        (stage.1.take functions root stage.2).calls := by
  induction steps generalizing current with
  | nil => rfl
  | cons s steps ih =>
    rw [takeAll, stages, List.flatMap_cons, ← ih]
    cases current with
    | nil =>
      obtain ⟨axis, test, ps⟩ := s
      have nothing : (take functions (.mk axis test ps) root []).calls = [] := by
        rw [take, Trace.calls_flatMap, List.flatMap_nil]
      have none : (take functions (.mk axis test ps) root []).value = [] := by
        rw [take_value, List.flatMap_nil]
      rw [nothing, none]
      cases steps <;> rfl
    | cons h current =>
      rw [List.isEmpty_cons, if_neg Bool.false_ne_true, Trace.calls_bind, Trace.calls_bind,
        Trace.calls_emit]
      rfl

theorem Expr.calls_selectAll (branches : List Expr) (root start : Handle) :
    (selectAll functions branches root start).calls =
      branches.flatMap fun e => (e.select functions root start).calls := by
  induction branches with
  | nil => rfl
  | cons e branches ih =>
    rw [selectAll, Trace.calls_bind, Trace.calls_bind, Trace.calls_pure, List.append_nil, ih,
      List.flatMap_cons]

theorem Predicate.calls_holdAll (ps : List Predicate) (h : Handle) (candidates : List Handle)
    (root : Handle) :
    (holdAll functions ps h candidates root).calls =
      (tested functions h candidates root ps).flatMap fun p =>
        (p.holds functions h candidates root).calls := by
  induction ps with
  | nil => rfl
  | cons p ps ih =>
    rw [holdAll, Trace.calls_bind, tested]
    split
    · rw [ih, List.flatMap_cons]
    · rw [Trace.calls_pure, List.append_nil, List.flatMap_singleton]

variable (functions)

/-- These are the calls made at any moments, from the first to the last, each with those that the called
function makes. -/
def Functions.CallsInOrder (find : List Nat → Option Invocation) (calls : List Invocation) : Prop :=
  ∃ direct, InOrder find direct ∧ direct.flatMap functions.callsOf = calls

variable {functions}

namespace Functions.CallsInOrder

theorem nothing {find : List Nat → Option Invocation} (none : ∀ moment, find moment = none) :
    functions.CallsInOrder find [] := by
  refine ⟨[], ⟨[], .nil, fun moment => ?_, rfl⟩, rfl⟩
  simp [none]

/-- Items one after the other make their calls one after the other. -/
theorem flatMap {α : Type} {find : List Nat → α → Option Invocation} {items : List α}
    {list : α → List Invocation}
    (each : ∀ item ∈ items, functions.CallsInOrder (find · item) (list item)) :
    functions.CallsInOrder (InOrder.findIn find items) (items.flatMap list) := by
  induction items with
  | nil => exact nothing fun moment => by cases moment <;> simp [InOrder.findIn]
  | cons item items ih =>
    obtain ⟨own, ownOrder, ownCalls⟩ := each item (by simp)
    obtain ⟨later, laterOrder, laterCalls⟩ := ih fun other h => each other (by simp [h])
    refine ⟨own ++ later, ownOrder.cons laterOrder, ?_⟩
    rw [List.flatMap_append, ownCalls, laterCalls, List.flatMap_cons]

end Functions.CallsInOrder

/-- If no function is missing, all parts of an expression make their calls moment by moment. -/
theorem partsInduction_calls :
    PartsInduction
      (fun e => (∀ name, e.Uses name → (functions name).isSome) → ∀ root start,
        functions.CallsInOrder (e.callAt? functions · root start) (e.select functions root start).calls)
      (fun s => (∀ name, s.Uses name → (functions name).isSome) → ∀ root current,
        functions.CallsInOrder (s.callAt? functions · root current)
          (s.take functions root current).calls)
      (fun p => (∀ name, p.Uses name → (functions name).isSome) → ∀ h candidates root,
        functions.CallsInOrder (p.callAt? functions · h candidates root)
          (p.holds functions h candidates root).calls) where
  path absolute steps ih := by
    intro known root start
    simp only [Expr.callAt?_path]
    rw [Expr.select, Step.calls_takeAll]
    refine .flatMap fun stage hs => ?_
    have member := Step.mem_of_mem_stages hs
    exact ih stage.1 member (fun name used => known name (used.path member)) root stage.2
  union branches ih := by
    intro known root start
    simp only [Expr.callAt?_union]
    rw [Expr.select, Trace.calls_bind, Trace.calls_bind, Trace.calls_emit, Trace.calls_pure,
      Expr.calls_selectAll]
    simp only [Event.invocation?, Option.toList_none, List.append_nil]
    exact .flatMap fun e he => ih e he (fun name used => known name (used.union he)) root start
  step axis test predicates ih := by
    intro known root current
    simp only [Step.callAt?_mk]
    rw [Step.take, Trace.calls_flatMap]
    refine .flatMap fun h _ => ?_
    rw [Trace.calls_filter]
    refine .flatMap fun c _ => ?_
    rw [Predicate.calls_holdAll]
    refine .flatMap fun p hp => ?_
    have member := Predicate.tested_subset predicates hp
    exact ih p member (fun name used => known name (used.step member)) c _ root
  attributes name value := fun _ h candidates root => .nothing fun moment => by simp
  position number := fun _ h candidates root => .nothing fun moment => by simp
  nested e ih := by
    intro known h candidates root
    have inner : ∀ name, e.Uses name → (functions name).isSome :=
      fun name used => known name used.nested
    have calls : (Predicate.holds functions (.nested e) h candidates root).calls =
        [e].flatMap fun e => (e.select functions h h).calls := by
      rw [Predicate.holds, Expr.missing_eq_nil inner]
      simp
    simp only [Predicate.callAt?_nested]
    rw [calls]
    exact .flatMap (by simpa using ih inner h h)
  function name := by
    intro known h candidates root
    obtain ⟨f, found⟩ := Option.isSome_iff_exists.mp (known name (Predicate.uses_function name))
    refine ⟨[⟨name, h, candidates, root⟩], ⟨[[]], List.pairwise_singleton _ _, fun moment => ?_, rfl⟩,
      ?_⟩
    · simp [Predicate.callAt?_function]
    · rw [List.flatMap_singleton, Predicate.holds]
      cases called : functions.call? name h candidates root with
      | none => simp [Functions.call?, found] at called
      | some answer => exact (Functions.calls_call? called).symm
  either p q ihp ihq := by
    intro known h candidates root
    have calls : (Predicate.holds functions (.either p q) h candidates root).calls =
        (Predicate.alternatives functions h candidates root p q).flatMap
          fun p => (p.holds functions h candidates root).calls := by
      rw [Predicate.holds, Trace.calls_bind, Predicate.alternatives]
      split <;> simp
    have first := ihp (fun name used => known name used.first) h candidates root
    have second := ihq (fun name used => known name used.second) h candidates root
    simp only [Predicate.callAt?_either]
    rw [calls]
    refine .flatMap fun r hr => ?_
    rcases Predicate.mem_alternatives hr with rfl | ⟨rfl, -⟩
    · exact first
    · exact second

end

end TreeQuery
