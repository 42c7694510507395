import TreeQuery.Proofs.Query.Builtin
import TreeQuery.Proofs.Query.Missing
import TreeQuery.Proofs.Query.Quiet

namespace TreeQuery

/-- What each function answers for a node, its candidates and a root. -/
abbrev Answers := String → Handle → List Handle → Handle → Bool

mutual
/-- The nodes that an expression finds when every function is taken to be there. -/
def Expr.found (answers : Answers) : Expr → (root start : Handle) → List Handle
  | .path _ steps, root, start => Step.foundAll answers steps root [start]
  | .union branches, root, start => Handle.distinct (Expr.foundAll answers branches root start)
/-- The nodes that several branches find, one branch after the other. -/
def Expr.foundAll (answers : Answers) : List Expr → (root start : Handle) → List Handle
  | [], _, _ => []
  | e :: es, root, start => Expr.found answers e root start ++ Expr.foundAll answers es root start
/-- The nodes that steps lead to, one step after the other. -/
def Step.foundAll (answers : Answers) : List Step → (root : Handle) → List Handle → List Handle
  | [], _, current => current
  | s :: steps, root, current =>
    Step.foundAll answers steps root (Step.found answers s root current)
def Step.found (answers : Answers) : Step → (root : Handle) → List Handle → List Handle
  | .mk axis test predicates, root, current => current.flatMap fun h =>
    (candidatesOf axis test h root).filter fun c =>
      Predicate.acceptAll answers predicates c (candidatesOf axis test h root) root
def Predicate.acceptAll (answers : Answers) :
    List Predicate → Handle → List Handle → Handle → Bool
  | [], _, _, _ => true
  | p :: ps, h, candidates, root =>
    Predicate.accepts answers p h candidates root && Predicate.acceptAll answers ps h candidates root
/-- Whether a predicate holds; a nested expression has to find something from the node as its root. -/
def Predicate.accepts (answers : Answers) : Predicate → Handle → List Handle → Handle → Bool
  | .attribute name value, h, _, _ => h.property? name == some value
  | .position number, h, candidates, _ => isAtPosition number h candidates
  | .nested e, h, _, _ => !(Expr.found answers e h h).isEmpty
  | .function name, h, candidates, root => answers name h candidates root
  | .either p q, h, candidates, root =>
    Predicate.accepts answers p h candidates root || Predicate.accepts answers q h candidates root
end

/-- The answers are those of these functions, as far as there are any. -/
def Functions.Give (functions : Functions) (answers : Answers) : Prop :=
  ∀ name f, functions name = some f → ∀ node candidates root,
    answers name node candidates root = (f node candidates root).value

section

variable {functions : Functions} {answers : Answers}

theorem Expr.foundAll_eq (es : List Expr) (root start : Handle) :
    Expr.foundAll answers es root start = es.flatMap fun e => e.found answers root start := by
  induction es with
  | nil => rfl
  | cons e es ih => rw [Expr.foundAll, ih, List.flatMap_cons]

theorem Step.foundAll_eq (steps : List Step) (root : Handle) (current : List Handle) :
    Step.foundAll answers steps root current =
      steps.foldl (fun current s => s.found answers root current) current := by
  induction steps generalizing current with
  | nil => rfl
  | cons s steps ih => rw [Step.foundAll, ih, List.foldl_cons]

theorem Predicate.acceptAll_eq (ps : List Predicate) (h : Handle) (candidates : List Handle)
    (root : Handle) :
    Predicate.acceptAll answers ps h candidates root =
      ps.all fun p => p.accepts answers h candidates root := by
  induction ps with
  | nil => rfl
  | cons p ps ih => rw [Predicate.acceptAll, ih, List.all_cons]

/-- If none of its functions is missing, every part of an expression answers what it answers without
checks. -/
theorem partsInduction_found (give : functions.Give answers) :
    PartsInduction
      (fun e => (∀ name, e.Uses name → (functions name).isSome) → ∀ root start,
        (e.select functions root start).value = e.found answers root start)
      (fun s => (∀ name, s.Uses name → (functions name).isSome) → ∀ root current,
        (s.take functions root current).value = s.found answers root current)
      (fun p => (∀ name, p.Uses name → (functions name).isSome) → ∀ h candidates root,
        (p.holds functions h candidates root).value = p.accepts answers h candidates root) where
  path absolute steps ih := by
    intro known root start
    rw [Expr.select_path, Expr.found, Step.foundAll_eq]
    refine List.foldl_ext _ _ _ fun current s hs => ?_
    exact ih s hs (fun name used => known name (used.path hs)) root current
  union branches ih := by
    intro known root start
    rw [Expr.select_union, Expr.found, Expr.foundAll_eq]
    refine congrArg Handle.distinct (List.flatMap_congr fun e he => ?_)
    exact ih e he (fun name used => known name (used.union he)) root start
  step axis test predicates ih := by
    intro known root current
    rw [Step.take_value, Step.found]
    refine List.flatMap_congr fun h _ => List.filter_congr fun c _ => ?_
    rw [Predicate.acceptAll_eq, Bool.eq_iff_iff, List.all_eq_true, List.all_eq_true]
    refine forall₂_congr fun p hp => ?_
    rw [ih p hp fun name used => known name (used.step hp)]
  attributes name value := fun _ h candidates root => Predicate.holds_attribute ..
  position number := fun _ h candidates root => Predicate.holds_position ..
  nested e ih := by
    intro known h candidates root
    have inner : ∀ name, e.Uses name → (functions name).isSome :=
      fun name used => known name used.nested
    rw [Predicate.holds_nested, Expr.missing_eq_nil inner, ih inner, Predicate.accepts]
    rfl
  function name := by
    intro known h candidates root
    obtain ⟨f, there⟩ := Option.isSome_iff_exists.mp (known name (Predicate.uses_function name))
    rw [Predicate.holds_function, Functions.answer, there, Predicate.accepts,
      give name f there h candidates root]
    rfl
  either p q ihp ihq := by
    intro known h candidates root
    rw [Predicate.holds_either, Predicate.accepts, ihp fun name used => known name used.first,
      ihq fun name used => known name used.second]

end

theorem Functions.give_answer (functions : Functions) : functions.Give functions.answer := by
  intro name f there node candidates root
  rw [answer, there]
  rfl

theorem Registry.functions_isSome (registry : Registry) (name : String) :
    (registry.functions name).isSome = registry.contains name := by
  rw [Dictionary.contains, ← Option.not_isNone, ← Option.not_isNone, registry.functions_isNone]

/-- Functions that are all registered are not missing. -/
theorem Registry.missing_eq_nil {registry : Registry} {e : Expr}
    (known : ∀ name ∈ e.functionNames, registry.contains name = true) :
    e.missing registry.functions = [] := by
  refine Expr.missing_eq_nil fun name used => ?_
  rw [registry.functions_isSome]
  exact known name (e.mem_functionNames_iff.mpr used)

theorem Registry.builtins_direct : ∀ name f, builtins.get? name = some f → f.Direct :=
  fun _ _ => of_get?_builtins (fun _ _ _ => trivial) (fun _ _ _ => trivial)

/-- Where all functions of an expression are there, the look through it at the start is enough. It
finds what it finds without checks; every nested expression at any place in it is evaluated with
success, and every function is there to be called. So nothing turns out to be missing on the way,
unless a function goes and evaluates other expressions. -/
theorem nothing_missing_once_checked (registry : Registry) (e : Expr)
    (known : ∀ name ∈ e.functionNames, registry.contains name = true) (root start : Handle) :
    (∀ answers : Answers, registry.functions.Give answers →
      (e.evaluateFrom registry root start).value = .ok (e.found answers root start)) ∧
    (∀ place inner, e.predicateAt? place = some (.nested inner) → ∀ h candidates root,
      ∃ matched, (inner.evaluateFrom registry h h).value = .ok matched ∧
        (Predicate.holds registry.functions (.nested inner) h candidates root).value =
          !matched.isEmpty) ∧
    (∀ place name, e.predicateAt? place = some (.function name) → ∀ h candidates root,
      ∃ f, registry.functions name = some f ∧
        (Predicate.holds registry.functions (.function name) h candidates root).value =
          (f h candidates root).value) ∧
    ((∀ name f, registry.get? name = some f → f.Direct) →
      (e.evaluateFrom registry root start).Quiet) := by
  have there : ∀ name, e.Uses name → (registry.functions name).isSome := by
    intro name used
    rw [registry.functions_isSome]
    exact known name (e.mem_functionNames_iff.mpr used)
  refine ⟨fun answers give => ?_, ?_, ?_, fun direct => ?_⟩
  · rw [Expr.evaluateFrom, Expr.evaluateWith_value, if_pos (Expr.missing_eq_nil there),
      (partsInduction_found give).expr e there root start]
  · intro place inner here h candidates root
    have none := Expr.missing_eq_nil fun name (used : inner.Uses name) =>
      there name (partsInduction_uses.expr e place _ here name used.nested)
    refine ⟨(inner.select registry.functions h h).value, ?_, ?_⟩
    · rw [Expr.evaluateFrom, Expr.evaluateWith_value, if_pos none]
    · rw [Predicate.holds_nested, none]
      rfl
  · intro place name here h candidates root
    obtain ⟨f, hf⟩ := Option.isSome_iff_exists.mp (there name ⟨place, here⟩)
    refine ⟨f, hf, ?_⟩
    rw [Predicate.holds_function, Functions.answer, hf]
    rfl
  · have quiet := Registry.quiet_functionsWithin direct Registry.maxCallDepth
    rw [Expr.evaluateFrom, Expr.evaluateWith, Expr.missing_eq_nil there]
    exact ((partsInduction_quiet quiet).expr e there root start).bind (Trace.quiet_pure _)

theorem nothing_missing_once_checked_last :
    let e : Expr := .path false
      [.mk .child .any [.nested (.path false [.mk .child .any [.function "last"]])]]
    let root : Handle := .plain (Tree.placed ⟨{ name := "a" }, [⟨{ name := "b" }, [.named "c"]⟩]⟩)
    (∀ name ∈ e.functionNames, Registry.builtins.contains name = true) ∧
      (e.evaluateFrom .builtins root root).value =
        .ok (e.found Registry.builtins.functions.answer root root) ∧
      (e.evaluateFrom .builtins root root).Quiet := by
  intro e root
  have names : e.functionNames = ["last"] := by decide
  have known : ∀ name ∈ e.functionNames, Registry.builtins.contains name = true := by
    intro name named
    rw [names, List.mem_singleton] at named
    rw [named, Dictionary.contains, Registry.get?_builtins]
    rfl
  obtain ⟨found, -, -, quiet⟩ := nothing_missing_once_checked .builtins e known root root
  exact ⟨known, found _ (Functions.give_answer _), quiet Registry.builtins_direct⟩

end TreeQuery
