import TreeQuery.Proofs.Query.Missing
import TreeQuery.Proofs.Query.Transfer

namespace TreeQuery

/-- The two answer alike, and look at nothing but the node and the candidates: neither the root nor what
they are told makes a difference. -/
def PredicateFunction.Alike (f g : PredicateFunction) : Prop :=
  ∀ functions functions' node candidates root root',
    ((f node candidates root).run functions).value = ((g node candidates root').run functions').value

namespace Registry

/-- Both lack the function, or both have it and it answers alike. -/
def AlikeAt (registry registry' : Registry) (name : String) : Prop :=
  Option.Rel PredicateFunction.Alike (registry.get? name) (registry'.get? name)

variable {registry registry' : Registry} {name : String}

theorem AlikeAt.isNone (alike : registry.AlikeAt registry' name) :
    (registry'.functions name).isNone = (registry.functions name).isNone := by
  rw [functions_isNone, functions_isNone]
  unfold AlikeAt at alike
  generalize registry.get? name = f, registry'.get? name = f' at alike ⊢
  cases alike with
  | some _ => rfl
  | none => rfl

theorem AlikeAt.answer (alike : registry.AlikeAt registry' name) (node : Handle)
    (candidates : List Handle) (root : Handle) :
    registry'.functions.answer name node candidates root =
      registry.functions.answer name node candidates root := by
  obtain ⟨inner, eq⟩ := registry.exists_running
  obtain ⟨inner', eq'⟩ := registry'.exists_running
  rw [Functions.answer, Functions.answer, eq, eq', running, running]
  unfold AlikeAt at alike
  generalize registry.get? name = f, registry'.get? name = f' at alike ⊢
  cases alike with
  | some same => exact (same inner inner' node candidates root root).symm
  | none => rfl

/-- Other functions may be added, replaced or taken away. -/
theorem alikeAt_of_get?_eq (same : registry'.get? name = registry.get? name)
    (alike : ∀ f, registry.get? name = some f → f.Alike f) : registry.AlikeAt registry' name := by
  unfold AlikeAt
  rw [same]
  cases found : registry.get? name with
  | some f => exact .some (alike f found)
  | none => exact .none

end Registry

/-- All predicates that are functions have one of these names. -/
def namedAmong (names : List String) : Criteria where
  predicate
    | .function name => name ∈ names
    | _ => true

/-- What asks something of predicates only is met where all listed predicates are as they should. -/
theorem partsInduction_meets_of_predicates {c : Criteria} (expr : ∀ e, c.expr e)
    (step : ∀ inside s, c.step inside s) :
    PartsInduction
      (fun e => (∀ p ∈ e.predicates, c.predicate p) → ∀ inside, e.meets c inside)
      (fun s => (∀ p ∈ Expr.stepPredicates s, c.predicate p) → ∀ inside, s.meets c inside)
      (fun p => (∀ q ∈ Expr.withInner p, c.predicate q) → ∀ inside, p.meets c inside) where
  path absolute steps ih := by
    intro all inside
    rw [Expr.predicates, Expr.stepsPredicates_eq, List.forall_mem_flatMap] at all
    exact (Expr.meets_path ..).mpr ⟨expr _, fun s hs => ih s hs (all s hs) inside⟩
  union branches ih := by
    intro all inside
    rw [Expr.predicates, Expr.branchesPredicates_eq, List.forall_mem_flatMap] at all
    exact (Expr.meets_union ..).mpr ⟨expr _, fun e he => ih e he (all e he) inside⟩
  step axis test predicates ih := by
    intro all inside
    rw [Expr.stepPredicates, Expr.listPredicates_eq, List.forall_mem_flatMap] at all
    exact (Step.meets_mk ..).mpr ⟨step _ _, fun p hp => ih p hp (all p hp) inside⟩
  attributes name value := fun all _ => all _ (by rw [Expr.withInner]; exact List.mem_singleton_self _)
  position number := fun all _ => all _ (by rw [Expr.withInner]; exact List.mem_singleton_self _)
  function name := fun all _ => all _ (by rw [Expr.withInner]; exact List.mem_singleton_self _)
  nested e ih := by
    intro all inside
    rw [Expr.withInner, List.forall_mem_cons] at all
    exact (Predicate.meets_nested ..).mpr ⟨all.1, ih all.2 true⟩
  either p q ihp ihq := by
    intro all inside
    rw [Expr.withInner, List.forall_mem_cons, List.forall_mem_append] at all
    obtain ⟨own, first, second⟩ := all
    exact (Predicate.meets_either ..).mpr ⟨own, ihp first inside, ihq second inside⟩

theorem Expr.meets_namedAmong (e : Expr) (inside : Bool) :
    e.meets (namedAmong e.functionNames) inside := by
  refine (partsInduction_meets_of_predicates (fun _ => rfl) fun _ _ => rfl).expr e ?_ inside
  intro p hp
  cases p with
  | function name =>
    have named : name ∈ e.functionNames := by
      rw [Expr.functionNames_eq, Expr.mem_foldl_addName]
      exact .inr (List.mem_filterMap.mpr ⟨_, hp, rfl⟩)
    simpa [namedAmong] using named
  | _ => rfl

/-- Handles stay what they are where only the functions change. -/
def sameHandles {names : List String} {registry registry' : Registry}
    (alike : ∀ name ∈ names, registry.AlikeAt registry' name) :
    Transfer (namedAmong names) registry.functions registry'.functions where
  move := id
  scope _ _ _ := True
  place _ _ := .rfl
  name _ := rfl
  property _ _ _ _ := rfl
  follow _ _ _ _ _ _ _ _ := ⟨(List.map_id _).symm, fun _ _ => trivial⟩
  enter _ _ _ _ := trivial
  known name named := (alike name (of_decide_eq_true named)).isNone
  answer inside root h candidates name named _ _ := by
    rw [List.map_id]
    exact (alike name (of_decide_eq_true named)).answer h candidates root

/-- Registries that agree on the functions an expression names give it the same outcome. -/
theorem Expr.evaluateFrom_alike {e : Expr} {registry registry' : Registry}
    (alike : ∀ name ∈ e.functionNames, registry.AlikeAt registry' name) (root start : Handle) :
    (e.evaluateFrom registry' root start).value = (e.evaluateFrom registry root start).value := by
  have same : (e.evaluateFrom registry' root start).value =
      (e.evaluateFrom registry root start).value.map (List.map id) :=
    (sameHandles alike).evaluateWith (e.meets_namedAmong false) trivial
  have unmoved (outcome : Except PathError (List Handle)) :
      outcome.map (List.map id) = outcome := by
    cases outcome with
    | error error => rfl
    | ok matched => exact congrArg Except.ok (List.map_id matched)
  exact same.trans (unmoved _)

end TreeQuery
