import TreeQuery.Proofs.Query.Builtin
import TreeQuery.Proofs.Query.Candidates
import TreeQuery.Proofs.Query.Moments

namespace TreeQuery

open TreeQuery.Tree

section

variable (functions : Functions)

/-- Testing a predicate comes to another: itself, or an alternative in it, if all those before it fail. -/
inductive Predicate.Tries (h : Handle) (candidates : List Handle) (root : Handle) :
    Predicate → Predicate → Prop
  | self (p : Predicate) : Tries h candidates root p p
  | first {p q r : Predicate} (inner : Tries h candidates root p r) :
    Tries h candidates root (.either p q) r
  | second {p q r : Predicate} (fails : (p.holds functions h candidates root).value = false)
    (inner : Tries h candidates root q r) : Tries h candidates root (.either p q) r

/-- A step that is taken from `h` comes to test `p` of its candidate `c`, once all predicates to the left
hold of it. -/
structure Step.Tests (s : Step) (root h c : Handle) (p : Predicate) : Prop where
  candidate : c ∈ candidatesOf s.axis s.test h root
  reached : ∃ before q after, s.predicates = before ++ q :: after ∧
    (∀ r ∈ before, (r.holds functions c (candidatesOf s.axis s.test h root) root).value) ∧
    q.Tries functions c (candidatesOf s.axis s.test h root) root p

/-- Evaluating an expression comes to take a step from the node `h` under the root `top`. Inside a nested
expression that is tested of a candidate, the candidate is both the root and the node to start from. -/
inductive Expr.Takes : Expr → (root start : Handle) → Step → (top h : Handle) → Prop
  | path {absolute : Bool} {steps : List Step} {root start h : Handle} {stage : Step × List Handle}
    (taken : stage ∈ Step.stages functions root steps [start]) (mem : h ∈ stage.2) :
    Takes (.path absolute steps) root start stage.1 root h
  | union {branches : List Expr} {e : Expr} {root start top h : Handle} {s : Step}
    (mem : e ∈ branches) (inner : Takes e root start s top h) :
    Takes (.union branches) root start s top h
  | nested {e inner : Expr} {root start top h c top' h' : Handle} {s s' : Step}
    (outer : Takes e root start s top h) (tests : s.Tests functions top h c (.nested inner))
    (inside : Takes inner c c s' top' h') : Takes e root start s' top' h'

/-- A call that evaluating an expression makes by itself, with the step and the node it comes from. -/
def Expr.Calls (e : Expr) (root start : Handle) (call : Invocation) : Prop :=
  ∃ s h, e.Takes functions root start s call.root h ∧
    call.candidates = candidatesOf s.axis s.test h call.root ∧
    s.Tests functions call.root h call.node (.function call.name)

/-- A call that testing a predicate makes, which is a function or a nested expression. -/
def Predicate.Calls (p : Predicate) (h : Handle) (candidates : List Handle) (root : Handle)
    (call : Invocation) : Prop :=
  (p = .function call.name ∧ call = ⟨call.name, h, candidates, root⟩) ∨
    ∃ e, p = .nested e ∧ e.Calls functions h h call

variable {functions}

theorem Predicate.reached_of_tested {h : Handle} {candidates : List Handle} {root : Handle}
    {p : Predicate} {ps : List Predicate} (tested : p ∈ tested functions h candidates root ps) :
    ∃ before after, ps = before ++ p :: after ∧
      ∀ q ∈ before, (q.holds functions h candidates root).value := by
  induction ps with
  | nil => cases tested
  | cons q ps ih =>
    rw [Predicate.tested] at tested
    split at tested
    · rename_i holds
      rcases List.mem_cons.mp tested with rfl | tested
      · exact ⟨[], ps, rfl, by simp⟩
      · obtain ⟨before, after, rfl, all⟩ := ih tested
        exact ⟨q :: before, after, rfl, List.forall_mem_cons.mpr ⟨holds, all⟩⟩
    · obtain rfl := List.mem_singleton.mp tested
      exact ⟨[], ps, rfl, by simp⟩

/-- A call at any moment is a call that the expression makes. -/
theorem partsInduction_callAt? :
    PartsInduction
      (fun e => ∀ moment root start call, e.callAt? functions moment root start = some call →
        e.Calls functions root start call)
      (fun s => ∀ moment root current call, s.callAt? functions moment root current = some call →
        ∃ h ∈ current, ∃ c p, s.Tests functions root h c p ∧
          p.Calls functions c (candidatesOf s.axis s.test h root) root call)
      (fun p => ∀ moment h candidates root call,
        p.callAt? functions moment h candidates root = some call →
        ∃ q, p.Tries functions h candidates root q ∧ q.Calls functions h candidates root call) where
  path absolute steps ih := by
    intro moment root start call found
    rw [Expr.callAt?_path] at found
    obtain ⟨stage, taken, moment, found⟩ := InOrder.mem_of_findIn found
    obtain ⟨h, hh, c, p, tests, calls⟩ :=
      ih stage.1 (Step.mem_of_mem_stages taken) moment root stage.2 call found
    have takes : (Expr.path absolute steps).Takes functions root start stage.1 root h :=
      .path taken hh
    rcases calls with ⟨rfl, same⟩ | ⟨e, rfl, s, k, inside, candidates, own⟩
    · rw [same]
      exact ⟨stage.1, h, takes, rfl, tests⟩
    · exact ⟨s, k, .nested takes tests inside, candidates, own⟩
  union branches ih := by
    intro moment root start call found
    rw [Expr.callAt?_union] at found
    obtain ⟨e, he, moment, found⟩ := InOrder.mem_of_findIn found
    obtain ⟨s, h, takes, calls⟩ := ih e he moment root start call found
    exact ⟨s, h, .union he takes, calls⟩
  step axis test predicates ih := by
    intro moment root current call found
    rw [Step.callAt?_mk] at found
    obtain ⟨h, hh, moment, found⟩ := InOrder.mem_of_findIn found
    obtain ⟨c, hc, moment, found⟩ := InOrder.mem_of_findIn found
    obtain ⟨p, tested, moment, found⟩ := InOrder.mem_of_findIn found
    obtain ⟨q, tries, calls⟩ :=
      ih p (Predicate.tested_subset predicates tested) moment c _ root call found
    obtain ⟨before, after, split, all⟩ := Predicate.reached_of_tested tested
    exact ⟨h, hh, c, q, ⟨hc, before, p, after, split, all, tries⟩, calls⟩
  attributes name value := by simp
  position number := by simp
  nested e ih := by
    intro moment h candidates root call found
    rw [Predicate.callAt?_nested] at found
    obtain ⟨inner, mem, moment, inside⟩ := InOrder.mem_of_findIn found
    obtain rfl := List.mem_singleton.mp mem
    exact ⟨.nested inner, .self _, .inr ⟨inner, rfl, ih moment h h call inside⟩⟩
  function name := by
    intro moment h candidates root call found
    rw [Predicate.callAt?_function] at found
    split at found
    · obtain rfl := Option.some.inj found
      exact ⟨.function name, .self _, .inl ⟨rfl, rfl⟩⟩
    · cases found
  either p q ihp ihq := by
    intro moment h candidates root call found
    rw [Predicate.callAt?_either] at found
    obtain ⟨r, mem, moment, inside⟩ := InOrder.mem_of_findIn found
    rcases Predicate.mem_alternatives mem with rfl | ⟨rfl, fails⟩
    · obtain ⟨s, tries, calls⟩ := ihp moment h candidates root call inside
      exact ⟨s, .first tries, calls⟩
    · obtain ⟨s, tries, calls⟩ := ihq moment h candidates root call inside
      exact ⟨s, .second fails tries, calls⟩

variable {t : Tree Placed}

theorem Step.take_sound (ordered : t.Ordered) {root : Handle} (hr : root.Sound t) (s : Step)
    {current : List Handle} (all : ∀ h ∈ current, h.Sound t) :
    ∀ h ∈ (s.take functions root current).value, h.Sound t := by
  obtain ⟨axis, test, ps⟩ := s
  intro k hk
  rw [take_value] at hk
  obtain ⟨h, hh, hk⟩ := List.mem_flatMap.mp hk
  exact candidatesOf_sound ordered hr (all h hh) k (List.mem_filter.mp hk).1

theorem Step.stages_sound (ordered : t.Ordered) {root : Handle} (hr : root.Sound t)
    {steps : List Step} {current : List Handle} (all : ∀ h ∈ current, h.Sound t)
    {stage : Step × List Handle} (taken : stage ∈ stages functions root steps current) :
    ∀ h ∈ stage.2, h.Sound t := by
  induction steps generalizing current with
  | nil => cases taken
  | cons s steps ih =>
    rcases List.mem_cons.mp taken with rfl | taken
    · exact all
    · exact ih (s.take_sound ordered hr all) taken

theorem Expr.Takes.sound {e : Expr} {root start top h : Handle} {s : Step}
    (takes : e.Takes functions root start s top h) (ordered : t.Ordered) (hr : root.Sound t)
    (hs : start.Sound t) : top.Sound t ∧ h.Sound t := by
  induction takes with
  | path taken mem => exact ⟨hr, Step.stages_sound ordered hr (by simpa using hs) taken _ mem⟩
  | union _ _ ih => exact ih hr hs
  | nested _ tests _ outer inside =>
    obtain ⟨top, node⟩ := outer hr hs
    have candidate := candidatesOf_sound ordered top node _ tests.candidate
    exact inside candidate candidate

end

/-- What is done calls functions with this node, these candidates and this root only, and evaluates
nothing. -/
def FunctionBody.PassesOn (node : Handle) (candidates : List Handle) (root : Handle) :
    FunctionBody → Prop
  | answer _ => True
  | knows _ next => ∀ known, (next known).PassesOn node candidates root
  | call _ h hs r next =>
    h = node ∧ hs = candidates ∧ r = root ∧ ∀ told, (next told).PassesOn node candidates root
  | evaluate .. => False

/-- A function that at most calls others with what it is called with itself. -/
def PredicateFunction.PassesOn (f : PredicateFunction) : Prop :=
  ∀ node candidates root, (f node candidates root).PassesOn node candidates root

theorem FunctionBody.PassesOn.mem_calls_run {node root : Handle} {candidates : List Handle}
    {body : FunctionBody} (passes : body.PassesOn node candidates root) {functions : Functions}
    {other : Invocation} (made : other ∈ (body.run functions).calls) :
    ∃ name, other ∈ functions.callsOf ⟨name, node, candidates, root⟩ := by
  induction body with
  | answer holds => cases made
  | knows name next ih => exact ih _ (passes _) made
  | call name h hs r next ih =>
    obtain ⟨rfl, rfl, rfl, following⟩ := passes
    rw [run] at made
    cases called : functions.call? name h hs r with
    | none =>
      rw [called] at made
      exact ih _ (following _) made
    | some answer =>
      rw [called, Trace.calls_bind] at made
      rcases List.mem_append.mp made with first | later
      · rw [Functions.calls_call? called] at first
        exact ⟨name, first⟩
      · exact ih _ (following _) later
  | evaluate root start e next ih => exact passes.elim

/-- The calls that such functions make in turn differ in the name and in nothing else. -/
theorem Registry.callsOf_functionsWithin {registry : Registry}
    (passes : ∀ name f, registry.get? name = some f → f.PassesOn) (depth : Nat)
    (call : Invocation) :
    ∀ other ∈ (registry.functionsWithin depth).callsOf call,
      other = { call with name := other.name } := by
  induction depth generalizing call with
  | zero =>
    intro other mem
    rcases List.mem_cons.mp mem with rfl | mem
    · rfl
    · rw [functionsWithin, cutOff] at mem
      cases found : registry.get? call.name with
      | none => simp [found] at mem
      | some f => simp [found, Trace.calls_emit, Event.invocation?] at mem
  | succ depth ih =>
    intro other mem
    rcases List.mem_cons.mp mem with rfl | mem
    · rfl
    · rw [functionsWithin_succ, running] at mem
      cases found : registry.get? call.name with
      | none => simp [found] at mem
      | some f =>
        rw [found, Option.map_some, Option.map_some, Option.getD_some] at mem
        obtain ⟨name, made⟩ := (passes call.name f found ..).mem_calls_run mem
        exact ih { call with name } other made

theorem Expr.calls_evaluateWith {e : Expr} {functions : Functions} {root start : Handle} :
    (e.evaluateWith functions root start).calls =
      if e.missing functions = [] then (e.select functions root start).calls else [] := by
  rw [evaluateWith]
  cases e.missing functions with
  | nil => simp
  | cons name names => rfl

theorem Registry.builtins_passesOn : ∀ name f, builtins.get? name = some f → f.PassesOn :=
  fun _ _ => of_get?_builtins (fun _ _ _ => trivial) (fun _ _ _ => trivial)

end TreeQuery
