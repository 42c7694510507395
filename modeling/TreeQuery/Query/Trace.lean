import TreeQuery.Path.Printer
import TreeQuery.Text.Quoted
import TreeQuery.Tree.Handle

namespace TreeQuery

/-- Something that happens during an evaluation. -/
inductive Event where
  /-- An expression is refused because the functions named are missing. -/
  | refused (expr : Expr) (missing : List String)
  /-- A step has been taken from all current nodes. -/
  | stepped (step : Step) (matched : Nat)
  /-- The matches of a union's branches have been merged. -/
  | merged (branches matched distinct : Nat)
  /-- A function predicate was tested although its function is missing. -/
  | unregistered (name : String)
  /-- A function is called. -/
  | called (name : String) (node : Handle) (candidates : List Handle) (root : Handle)
  /-- A function that is called does not run, because functions have called each other too deep. -/
  | cutOff (name : String)

/-- How important a line of the log is. -/
inductive Level where
  | warn
  | debug
  | trace
  deriving DecidableEq, Repr

def Level.name : Level → String
  | warn => "WARN"
  | debug => "DEBUG"
  | trace => "TRACE"

/-- The line that an event leaves in the log; calls leave none, whether they are cut off or not. -/
def Event.logLine? : Event → Option (Level × String)
  | refused expr missing =>
    some (.debug, "Rejecting '" ++ toString expr ++ "': unregistered function predicates " ++
      Text.quotedList missing)
  | stepped step matched =>
    some (.trace, "Step '" ++ toString step ++ "' matched " ++ toString matched ++ " node(s)")
  | merged branches matched distinct =>
    some (.debug, "Union of " ++ toString branches ++ " branches: " ++ toString matched ++
      " matches, " ++ toString distinct ++ " after de-duplication")
  | unregistered name =>
    some (.warn, "Function predicate '" ++ name ++ "' is not registered")
  | called .. | cutOff _ => none

/-- An answer together with the events on the way to it. Events are added and never read, so no answer
depends on them. -/
structure Trace (α : Type) where
  value : α
  events : Array Event := #[]

namespace Trace

variable {α β : Type}

protected def bind (x : Trace α) (f : α → Trace β) : Trace β :=
  let y := f x.value
  ⟨y.value, x.events ++ y.events⟩

instance : Monad Trace where
  pure a := ⟨a, #[]⟩
  bind := Trace.bind

/-- Adds one event. -/
def emit (event : Event) : Trace Unit := ⟨(), #[event]⟩

@[simp] theorem pure_value (a : α) : (pure a : Trace α).value = a := rfl

@[simp] theorem pure_events (a : α) : (pure a : Trace α).events = #[] := rfl

@[simp] theorem bind_value (x : Trace α) (f : α → Trace β) :
    (x >>= f).value = (f x.value).value := rfl

@[simp] theorem bind_events (x : Trace α) (f : α → Trace β) :
    (x >>= f).events = x.events ++ (f x.value).events := rfl

/-- Keeps the members that pass a test, testing each once in order. -/
def filter (test : α → Trace Bool) (xs : List α) : Trace (List α) :=
  let (kept, events) := xs.foldl (fun (kept, events) x =>
    let t := test x
    (if t.value then kept.push x else kept, events ++ t.events)) (#[], #[])
  ⟨kept.toList, events⟩

/-- The events of testing several things are those of each test in turn. -/
theorem foldl_filter (test : α → Trace Bool) (xs : List α) (kept : Array α) (events : Array Event) :
    xs.foldl (fun (kept, events) x =>
      let t := test x
      (if t.value then kept.push x else kept, events ++ t.events)) (kept, events) =
      (kept ++ (xs.filter fun x => (test x).value),
        events ++ (xs.flatMap fun x => (test x).events.toList)) := by
  induction xs generalizing kept events with
  | nil => simp
  | cons x xs ih =>
    rw [List.foldl_cons, ih]
    by_cases h : (test x).value = true <;> simp [h, ← Array.toList_inj]

@[simp] theorem filter_value (test : α → Trace Bool) (xs : List α) :
    (filter test xs).value = xs.filter fun x => (test x).value := by
  simp [filter, foldl_filter]

theorem filter_events (test : α → Trace Bool) (xs : List α) :
    (filter test xs).events.toList = xs.flatMap fun x => (test x).events.toList := by
  simp [filter, foldl_filter]

/-- Joins the lists that the members give, in order. -/
def flatMap (f : α → Trace (List β)) (xs : List α) : Trace (List β) :=
  let (found, events) := xs.foldl (fun (found, events) x =>
    let t := f x
    (found ++ t.value, events ++ t.events)) (#[], #[])
  ⟨found.toList, events⟩

/-- The lists that several things give are joined, and so are the events of finding each. -/
theorem foldl_flatMap (f : α → Trace (List β)) (xs : List α) (found : Array β)
    (events : Array Event) :
    xs.foldl (fun (found, events) x =>
      let t := f x
      (found ++ t.value, events ++ t.events)) (found, events) =
      (found ++ (xs.flatMap fun x => (f x).value),
        events ++ (xs.flatMap fun x => (f x).events.toList)) := by
  induction xs generalizing found events with
  | nil => simp
  | cons x xs ih =>
    rw [List.foldl_cons, ih]
    simp [← Array.toList_inj]

@[simp] theorem flatMap_value (f : α → Trace (List β)) (xs : List α) :
    (flatMap f xs).value = xs.flatMap fun x => (f x).value := by
  simp [flatMap, foldl_flatMap]

theorem flatMap_events (f : α → Trace (List β)) (xs : List α) :
    (flatMap f xs).events.toList = xs.flatMap fun x => (f x).events.toList := by
  simp [flatMap, foldl_flatMap]

theorem forall_events_bind {P : Event → Prop} {x : Trace α} {f : α → Trace β} :
    (∀ event ∈ (x >>= f).events, P event) ↔
      (∀ event ∈ x.events, P event) ∧ ∀ event ∈ (f x.value).events, P event := by
  simp only [bind_events, Array.mem_append, or_imp, forall_and]

theorem forall_events_filter {P : Event → Prop} {test : α → Trace Bool} {xs : List α} :
    (∀ event ∈ (filter test xs).events, P event) ↔
      ∀ x ∈ xs, ∀ event ∈ (test x).events, P event := by
  simp only [← Array.mem_toList_iff, filter_events, List.forall_mem_flatMap]

theorem forall_events_flatMap {P : Event → Prop} {f : α → Trace (List β)} {xs : List α} :
    (∀ event ∈ (flatMap f xs).events, P event) ↔ ∀ x ∈ xs, ∀ event ∈ (f x).events, P event := by
  simp only [← Array.mem_toList_iff, flatMap_events, List.forall_mem_flatMap]

end Trace

end TreeQuery
