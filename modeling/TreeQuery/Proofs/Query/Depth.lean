import Mathlib.Data.Option.Basic
import TreeQuery.Proofs.Path.Parts
import TreeQuery.Proofs.Query.Answer

namespace TreeQuery

/-- Whether an event tells that a call was cut off. -/
def Event.tellsCutOff : Event → Bool
  | cutOff _ => true
  | refused .. | stepped .. | merged .. | unregistered _ | called .. => false

/-- No call was cut off on the way to the answer. -/
def Trace.Finished {α : Type} (x : Trace α) : Prop := ∀ event ∈ x.events, event.tellsCutOff = false

/-- The second run is the first one, unless this was cut off. -/
def Trace.Settles {α : Type} (x y : Trace α) : Prop := x.Finished → y = x

namespace Trace

variable {α β : Type}

theorem ext_parts {x y : Trace α} (value : x.value = y.value) (events : x.events = y.events) :
    x = y := by
  obtain ⟨a, as⟩ := x
  obtain ⟨b, bs⟩ := y
  obtain rfl : a = b := value
  obtain rfl : as = bs := events
  rfl

theorem not_finished_cutOff (name : String) {f : Unit → Trace α} :
    ¬ (emit (.cutOff name) >>= f).Finished := by
  intro finished
  have told := (forall_events_bind.mp finished).1 (.cutOff name) (by simp [emit])
  cases told

theorem filter_congr {test test' : α → Trace Bool} {xs : List α}
    (same : ∀ x ∈ xs, test' x = test x) : filter test' xs = filter test xs := by
  apply ext_parts
  · rw [filter_value, filter_value]
    exact List.filter_congr fun x hx => by rw [same x hx]
  · apply Array.toList_inj.mp
    rw [filter_events, filter_events]
    exact List.flatMap_congr fun x hx => by rw [same x hx]

theorem flatMap_congr {f f' : α → Trace (List β)} {xs : List α}
    (same : ∀ x ∈ xs, f' x = f x) : flatMap f' xs = flatMap f xs := by
  apply ext_parts
  · rw [flatMap_value, flatMap_value]
    exact List.flatMap_congr fun x hx => by rw [same x hx]
  · apply Array.toList_inj.mp
    rw [flatMap_events, flatMap_events]
    exact List.flatMap_congr fun x hx => by rw [same x hx]

theorem Settles.refl (x : Trace α) : x.Settles x := fun _ => rfl

/-- What goes on from the first run is compared only for the answer that this gives. -/
theorem Settles.bind {x x' : Trace α} {f f' : α → Trace β} (first : x.Settles x')
    (next : (f x.value).Settles (f' x.value)) : (x >>= f).Settles (x' >>= f') := by
  intro finished
  obtain ⟨here, there⟩ := forall_events_bind.mp finished
  obtain rfl := first here
  apply ext_parts
  · rw [bind_value, bind_value, next there]
  · rw [bind_events, bind_events, next there]

theorem settles_filter {test test' : α → Trace Bool} {xs : List α}
    (each : ∀ x ∈ xs, (test x).Settles (test' x)) : (filter test xs).Settles (filter test' xs) :=
  fun finished => filter_congr fun x hx => each x hx (forall_events_filter.mp finished x hx)

theorem settles_flatMap {f f' : α → Trace (List β)} {xs : List α}
    (each : ∀ x ∈ xs, (f x).Settles (f' x)) : (flatMap f xs).Settles (flatMap f' xs) :=
  fun finished => flatMap_congr fun x hx => each x hx (forall_events_flatMap.mp finished x hx)

end Trace

/-- The second functions have the same names as the first and do the same wherever these are not cut
off. -/
def Functions.Settle (functions functions' : Functions) : Prop :=
  ∀ name, Option.Rel
    (fun f g => ∀ node candidates root, (f node candidates root).Settles (g node candidates root))
    (functions name) (functions' name)

section

variable {functions functions' : Functions} (settle : functions.Settle functions')

include settle

theorem Functions.Settle.isNone (name : String) :
    (functions' name).isNone = (functions name).isNone := by
  generalize functions name = f, functions' name = f', settle name = related
  cases related with
  | some _ => rfl
  | none => rfl

theorem Functions.Settle.missing (e : Expr) : e.missing functions' = e.missing functions := by
  unfold Expr.missing
  simp only [settle.isNone]

/-- A call by name is made by both or by neither. -/
theorem Functions.Settle.call? (name : String) (node : Handle) (candidates : List Handle)
    (root : Handle) : Option.Rel Trace.Settles (functions.call? name node candidates root)
      (functions'.call? name node candidates root) := by
  unfold Functions.call?
  generalize functions name = f, functions' name = f', settle name = related
  cases related with
  | some same => exact .some (.bind (.refl _) (same node candidates root))
  | none => exact .none

/-- All parts of an expression do the same with either functions, as long as none is cut off. -/
theorem partsInduction_settles :
    PartsInduction
      (fun e => ∀ root start, (e.select functions root start).Settles (e.select functions' root start))
      (fun s => ∀ root current,
        (s.take functions root current).Settles (s.take functions' root current))
      (fun p => ∀ h candidates root,
        (p.holds functions h candidates root).Settles (p.holds functions' h candidates root)) where
  path absolute steps ih := by
    intro root start
    have all : ∀ current, (Step.takeAll functions steps root current).Settles
        (Step.takeAll functions' steps root current) := by
      induction steps with
      | nil => exact fun _ => .refl _
      | cons s steps more =>
        intro current
        rw [Step.takeAll, Step.takeAll]
        split
        · exact .refl _
        · refine .bind (ih s (by simp) root current) (.bind (.refl _) ?_)
          exact more (fun t ht => ih t (by simp [ht])) _
    exact all [start]
  union branches ih := by
    intro root start
    have all : (Expr.selectAll functions branches root start).Settles
        (Expr.selectAll functions' branches root start) := by
      induction branches with
      | nil => exact .refl _
      | cons e branches more =>
        refine .bind (ih e (by simp) root start) (.bind ?_ (.refl _))
        exact more fun f hf => ih f (by simp [hf])
    exact all.bind (.refl _)
  step axis test predicates ih := by
    intro root current
    have all : ∀ h candidates, (Predicate.holdAll functions predicates h candidates root).Settles
        (Predicate.holdAll functions' predicates h candidates root) := by
      intro h candidates
      induction predicates with
      | nil => exact .refl _
      | cons p predicates more =>
        refine .bind (ih p (by simp) h candidates root) ?_
        split
        · exact more fun q hq => ih q (by simp [hq])
        · exact .refl _
    rw [Step.take, Step.take]
    exact Trace.settles_flatMap fun h _ => Trace.settles_filter fun c _ => all c _
  attributes name value := fun _ _ _ => .refl _
  position number := fun _ _ _ => .refl _
  nested e ih := by
    intro h candidates root
    rw [Predicate.holds, Predicate.holds, settle.missing]
    split
    · exact .bind (ih h h) (.refl _)
    · exact .refl _
  function name := by
    intro h candidates root
    rw [Predicate.holds, Predicate.holds]
    generalize functions.call? name h candidates root = answer,
      functions'.call? name h candidates root = answer', settle.call? name h candidates root = related
    cases related with
    | some same => exact same
    | none => exact .refl _
  either p q ihp ihq := by
    intro h candidates root
    rw [Predicate.holds, Predicate.holds]
    refine .bind (ihp h candidates root) ?_
    split
    · exact .refl _
    · exact ihq h candidates root

theorem Expr.evaluateWith_settles (e : Expr) (root start : Handle) :
    (e.evaluateWith functions root start).Settles (e.evaluateWith functions' root start) := by
  rw [evaluateWith, evaluateWith, settle.missing]
  split
  · exact .bind ((partsInduction_settles settle).expr e root start) (.refl _)
  · exact .refl _

theorem FunctionBody.run_settles (body : FunctionBody) :
    (body.run functions).Settles (body.run functions') := by
  induction body with
  | answer holds => exact .refl _
  | knows name next ih =>
    have known : (functions' name).isSome = (functions name).isSome := by
      rw [← Option.not_isNone, ← Option.not_isNone, settle.isNone]
    rw [run, run, known]
    exact ih _
  | call name node candidates root next ih =>
    rw [run, run]
    generalize functions.call? name node candidates root = answer,
      functions'.call? name node candidates root = answer',
      settle.call? name node candidates root = related
    cases related with
    | some same => exact same.bind (ih _)
    | none => exact ih _
  | evaluate root start e next ih => exact .bind (e.evaluateWith_settles settle root start) (ih _)

theorem Registry.running_settle (registry : Registry) :
    (registry.running functions).Settle (registry.running functions') := by
  intro name
  unfold running
  cases registry.get? name with
  | none => exact .none
  | some f => exact .some fun node candidates root => (f node candidates root).run_settles settle

end

namespace Registry

theorem functionsWithin_isNone (registry : Registry) (depth : Nat) (name : String) :
    (registry.functionsWithin depth name).isNone = (registry.get? name).isNone := by
  cases depth with
  | zero => exact Option.isNone_map
  | succ depth => exact Option.isNone_map

/-- Functions that are cut off agree with any others of these names. -/
theorem cutOff_settle {registry : Registry} {functions : Functions}
    (names : ∀ name, (functions name).isNone = (registry.get? name).isNone) :
    registry.cutOff.Settle functions := by
  intro name
  have known := names name
  unfold cutOff
  generalize registry.get? name = f, functions name = g at known
  cases f with
  | none =>
    obtain rfl := Option.isNone_iff_eq_none.mp known
    exact .none
  | some f =>
    cases g with
    | none => cases known
    | some g => exact .some fun _ _ _ finished => absurd finished (Trace.not_finished_cutOff name)

theorem functionsWithin_settle (registry : Registry) {depth depth' : Nat} (le : depth ≤ depth') :
    (registry.functionsWithin depth).Settle (registry.functionsWithin depth') := by
  induction depth generalizing depth' with
  | zero => exact cutOff_settle (registry.functionsWithin_isNone depth')
  | succ depth ih =>
    obtain ⟨less, rfl⟩ := Nat.exists_eq_add_one_of_ne_zero (Nat.ne_of_gt (Nat.zero_lt_of_lt le))
    exact registry.running_settle (ih (Nat.le_of_succ_le_succ le))

/-- Functions that ask nothing but each other go on where the others are cut off. -/
theorem functionsWithin_settle_unlimited {registry : Registry} {functions : Functions}
    (unlimited : registry.running functions = functions) (depth : Nat) :
    (registry.functionsWithin depth).Settle functions := by
  induction depth with
  | zero =>
    refine cutOff_settle fun name => ?_
    rw [← unlimited]
    exact Option.isNone_map
  | succ depth ih =>
    rw [← unlimited]
    exact registry.running_settle ih

end Registry

/-- The limit on calls makes no difference to an evaluation in which none was cut off: with any higher
limit it is the same, and with functions that are under no limit. -/
theorem Expr.evaluateFrom_of_finished {e : Expr} {registry : Registry} {root start : Handle}
    (finished : (e.evaluateFrom registry root start).Finished) :
    (∀ depth ≥ Registry.maxCallDepth,
      e.evaluateWith (registry.functionsWithin depth) root start =
        e.evaluateFrom registry root start) ∧
    ∀ functions, registry.running functions = functions →
      e.evaluateWith functions root start = e.evaluateFrom registry root start := by
  constructor
  · intro depth enough
    exact e.evaluateWith_settles (registry.functionsWithin_settle enough) root start finished
  · intro functions unlimited
    have settle := Registry.functionsWithin_settle_unlimited unlimited Registry.maxCallDepth
    exact e.evaluateWith_settles settle root start finished

/-- A function that calls itself again and again is cut off under every limit. -/
theorem Registry.cut_off_of_calls_itself {registry : Registry} {name : String}
    {next : Handle → List Handle → Handle → Option Bool → FunctionBody}
    (itself : registry.get? name = some fun node candidates root =>
      .call name node candidates root (next node candidates root))
    {depth : Nat} {node root : Handle} {candidates : List Handle} {answer : Trace Bool}
    (called : (registry.functionsWithin depth).call? name node candidates root = some answer) :
    ¬ answer.Finished := by
  induction depth generalizing answer with
  | zero =>
    rw [Functions.call?, functionsWithin, cutOff, itself] at called
    obtain rfl := Option.some.inj called
    exact fun finished =>
      Trace.not_finished_cutOff name (Trace.forall_events_bind.mp finished).2
  | succ depth ih =>
    rw [Functions.call?, functionsWithin_succ, running, itself] at called
    obtain rfl := Option.some.inj called
    intro finished
    have runs := (Trace.forall_events_bind.mp finished).2
    dsimp only at runs
    rw [FunctionBody.run] at runs
    cases again : (registry.functionsWithin depth).call? name node candidates root with
    | none =>
      have known := registry.functionsWithin_isNone depth name
      rw [itself, Option.map_eq_none_iff.mp again] at known
      cases known
    | some inner =>
      rw [again] at runs
      exact ih again (Trace.forall_events_bind.mp runs).1

end TreeQuery
