import TreeQuery.Proofs.Path.Places
import TreeQuery.Proofs.Query.Answer

namespace TreeQuery

/-- Whether an event tells that a function is missing. -/
def Event.tellsMissing : Event → Bool
  | refused .. | unregistered _ => true
  | stepped .. | merged .. | called .. | cutOff _ => false

/-- Nothing turns out to be missing on the way to the answer. -/
def Trace.Quiet {α : Type} (x : Trace α) : Prop := ∀ event ∈ x.events, event.tellsMissing = false

namespace Trace

variable {α β : Type}

theorem quiet_pure (a : α) : (pure a : Trace α).Quiet := by
  simp [Quiet]

theorem quiet_emit {event : Event} (h : event.tellsMissing = false) : (emit event).Quiet := by
  simpa [Quiet, emit] using h

theorem Quiet.bind {x : Trace α} {f : α → Trace β} (hx : x.Quiet) (hf : (f x.value).Quiet) :
    (x >>= f).Quiet :=
  forall_events_bind.mpr ⟨hx, hf⟩

end Trace

/-- What is done evaluates no expressions, whatever is told. -/
def FunctionBody.Direct : FunctionBody → Prop
  | answer _ => True
  | knows _ next => ∀ known, (next known).Direct
  | call _ _ _ _ next => ∀ told, (next told).Direct
  | evaluate .. => False

/-- A function that evaluates no expressions. -/
def PredicateFunction.Direct (f : PredicateFunction) : Prop :=
  ∀ node candidates root, (f node candidates root).Direct

/-- No function of these finds anything missing. -/
def Functions.Quiet (functions : Functions) : Prop :=
  ∀ name f, functions name = some f → ∀ node candidates root, (f node candidates root).Quiet

theorem Functions.Quiet.call? {functions : Functions} (quiet : functions.Quiet) {name : String}
    {node root : Handle} {candidates : List Handle} {answer : Trace Bool}
    (h : functions.call? name node candidates root = some answer) : answer.Quiet := by
  obtain ⟨f, known, rfl⟩ := Option.map_eq_some_iff.mp h
  exact (Trace.quiet_emit rfl).bind (quiet name f known node candidates root)

/-- A function that evaluates nothing is as quiet as the functions it calls. -/
theorem FunctionBody.Direct.quiet_run {functions : Functions} (quiet : functions.Quiet)
    {body : FunctionBody} (direct : body.Direct) : (body.run functions).Quiet := by
  induction body with
  | answer holds => exact Trace.quiet_pure holds
  | knows name next ih => exact ih _ (direct _)
  | call name node candidates root next ih =>
    rw [run]
    cases called : functions.call? name node candidates root with
    | none => exact ih _ (direct _)
    | some answer => exact (quiet.call? called).bind (ih _ (direct _))
  | evaluate root start e next ih => exact direct.elim

namespace Registry

/-- Direct functions stay quiet however deep they call each other. -/
theorem quiet_functionsWithin {registry : Registry}
    (direct : ∀ name f, registry.get? name = some f → f.Direct) (depth : Nat) :
    (registry.functionsWithin depth).Quiet := by
  induction depth with
  | zero =>
    intro name f known node candidates root
    obtain ⟨function, -, rfl⟩ := Option.map_eq_some_iff.mp known
    exact (Trace.quiet_emit rfl).bind (Trace.quiet_pure false)
  | succ depth ih =>
    intro name f known node candidates root
    obtain ⟨function, found, rfl⟩ := Option.map_eq_some_iff.mp known
    exact (direct name function found node candidates root).quiet_run ih

end Registry

section

variable {functions : Functions}

theorem Expr.missing_eq_nil {e : Expr} (known : ∀ name, e.Uses name → (functions name).isSome) :
    e.missing functions = [] := by
  refine List.filter_eq_nil_iff.mpr fun name named => ?_
  have found := known name (e.mem_functionNames_iff.mp named)
  simpa [Option.isSome_iff_ne_none] using found

theorem Expr.isSome_of_uses {e : Expr} (none : e.missing functions = []) {name : String}
    (used : e.Uses name) : (functions name).isSome := by
  have known := List.filter_eq_nil_iff.mp none name (e.mem_functionNames_iff.mpr used)
  simpa [Option.isSome_iff_ne_none] using known

/-- If functions are quiet and none is missing, all parts of an expression are quiet. -/
theorem partsInduction_quiet (quiet : functions.Quiet) :
    PartsInduction
      (fun e => (∀ name, e.Uses name → (functions name).isSome) →
        ∀ root start, (e.select functions root start).Quiet)
      (fun s => (∀ name, s.Uses name → (functions name).isSome) →
        ∀ root current, (s.take functions root current).Quiet)
      (fun p => (∀ name, p.Uses name → (functions name).isSome) →
        ∀ h candidates root, (p.holds functions h candidates root).Quiet) where
  path absolute steps ih := by
    intro known root start
    have each : ∀ s ∈ steps, ∀ root current, (s.take functions root current).Quiet :=
      fun s hs => ih s hs fun name used => known name (used.path hs)
    have all : ∀ current, (Step.takeAll functions steps root current).Quiet := by
      clear ih known
      induction steps with
      | nil => exact Trace.quiet_pure
      | cons s steps more =>
        intro current
        rw [Step.takeAll]
        split
        · exact Trace.quiet_pure []
        · refine (each s (by simp) root current).bind (.bind (Trace.quiet_emit rfl) ?_)
          exact more (fun t ht => each t (by simp [ht])) _
    exact all [start]
  union branches ih := by
    intro known root start
    have each : ∀ e ∈ branches, ∀ root start, (e.select functions root start).Quiet :=
      fun e he => ih e he fun name used => known name (used.union he)
    have all : (Expr.selectAll functions branches root start).Quiet := by
      clear ih known
      induction branches with
      | nil => exact Trace.quiet_pure []
      | cons e branches more =>
        refine (each e (by simp) root start).bind (.bind ?_ (Trace.quiet_pure _))
        exact more fun f hf => each f (by simp [hf])
    exact all.bind (.bind (Trace.quiet_emit rfl) (Trace.quiet_pure _))
  step axis test predicates ih := by
    intro known root current
    have each : ∀ p ∈ predicates, ∀ h candidates root, (p.holds functions h candidates root).Quiet :=
      fun p hp => ih p hp fun name used => known name (used.step hp)
    have all : ∀ h candidates, (Predicate.holdAll functions predicates h candidates root).Quiet := by
      clear ih known
      intro h candidates
      induction predicates with
      | nil => exact Trace.quiet_pure true
      | cons p predicates more =>
        refine (each p (by simp) h candidates root).bind ?_
        split
        · exact more fun q hq => each q (by simp [hq])
        · exact Trace.quiet_pure false
    exact Trace.forall_events_flatMap.mpr fun h _ =>
      Trace.forall_events_filter.mpr fun c _ => all c _
  attributes name value := fun _ _ _ _ => Trace.quiet_pure _
  position number := fun _ _ _ _ => Trace.quiet_pure _
  nested e ih := by
    intro known h candidates root
    have inner : ∀ name, e.Uses name → (functions name).isSome :=
      fun name used => known name used.nested
    rw [Predicate.holds, Expr.missing_eq_nil inner]
    exact (ih inner h h).bind (Trace.quiet_pure _)
  function name := by
    intro known h candidates root
    obtain ⟨f, found⟩ := Option.isSome_iff_exists.mp (known name (Predicate.uses_function name))
    rw [Predicate.holds]
    cases called : functions.call? name h candidates root with
    | none => simp [Functions.call?, found] at called
    | some answer => exact quiet.call? called
  either p q ihp ihq := by
    intro known h candidates root
    rw [Predicate.holds]
    refine (ihp (fun name used => known name used.first) h candidates root).bind ?_
    split
    · exact Trace.quiet_pure true
    · exact ihq (fun name used => known name used.second) h candidates root

end

end TreeQuery
