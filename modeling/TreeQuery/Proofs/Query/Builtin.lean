import TreeQuery.Proofs.Query.Answer

namespace TreeQuery

/-- Whether a node is the last of the candidates. -/
def isLast (node : Handle) (candidates : List Handle) : Bool :=
  match candidates.getLast? with
  | some h => h == node
  | none => false

namespace Registry

theorem get?_builtins (name : String) :
    builtins.get? name =
      if "last" = name then some .last else if "terminal" = name then some .terminal else none := by
  rw [builtins, register, register, Dictionary.get?_insert, Dictionary.get?_insert, empty,
    Dictionary.get?_empty]

/-- What holds of both builtin functions holds of all that are registered. -/
theorem of_get?_builtins {P : PredicateFunction → Prop} (last : P .last) (terminal : P .terminal)
    {name : String} {f : PredicateFunction} (found : builtins.get? name = some f) : P f := by
  rw [get?_builtins] at found
  split at found
  · exact Option.some.inj found ▸ last
  · split at found
    · exact Option.some.inj found ▸ terminal
    · cases found

/-- However deep calls may go, the functions that predicates name are run and not cut off. -/
theorem exists_running (registry : Registry) :
    ∃ inner, registry.functions = registry.running inner := by
  obtain ⟨depth, deep⟩ : ∃ depth, maxCallDepth = depth + 1 := ⟨99999, rfl⟩
  exact ⟨registry.functionsWithin depth, by rw [functions, deep, functionsWithin_succ]⟩

/-- The builtin functions ask nothing, so it makes no difference how deep calls may go. -/
theorem functions_builtins : builtins.functions = fun name =>
    if "last" = name then some fun node candidates _ => pure (isLast node candidates)
    else if "terminal" = name then some fun node _ _ => pure node.isTerminal else none := by
  obtain ⟨inner, eq⟩ := builtins.exists_running
  rw [eq]
  funext name
  rw [running, get?_builtins]
  split
  · rfl
  · split <;> rfl

variable (name : String) (node : Handle) (candidates : List Handle) (root : Handle)

theorem answer_builtins :
    builtins.functions.answer name node candidates root =
      if "last" = name then isLast node candidates
      else if "terminal" = name then node.isTerminal else false := by
  rw [Functions.answer, functions_builtins]
  dsimp only
  split
  · rfl
  · split <;> rfl

/-- Where `last` is the usual function, it tells whether a node is the last of the candidates. -/
theorem answer_last {registry : Registry} (usual : registry.get? "last" = some .last) :
    registry.functions.answer "last" node candidates root = isLast node candidates := by
  obtain ⟨inner, eq⟩ := registry.exists_running
  rw [Functions.answer, eq, running, usual]
  rfl

theorem answer_empty : empty.functions.answer name node candidates root = false := by
  obtain ⟨inner, eq⟩ := empty.exists_running
  rw [Functions.answer, eq]
  rfl

end Registry

/-- The registries that a run of the command line may use. -/
def Registry.standard (builtins : Bool) : Registry :=
  if builtins then .builtins else .empty

/-- The standard functions look at nothing of a node but its value, whether it has children, and
whether it is the last candidate. -/
theorem Registry.answer_standard (move : Handle → Handle)
    (place : ∀ h k, (move h).place = (move k).place ↔ h.place = k.place)
    (terminal : ∀ h, (move h).isTerminal = h.isTerminal) (allowed : Bool) (name : String)
    (node : Handle) (candidates : List Handle) (root root' : Handle) :
    (standard allowed).functions.answer name (move node) (candidates.map move) root' =
      (standard allowed).functions.answer name node candidates root := by
  have last : isLast (move node) (candidates.map move) = isLast node candidates := by
    rw [isLast, isLast, List.getLast?_map]
    cases candidates.getLast? with
    | none => rfl
    | some h =>
      change (move h == move node) = (h == node)
      exact Bool.eq_iff_iff.mpr (by rw [Handle.beq_iff, Handle.beq_iff, place])
  cases allowed with
  | true =>
    change builtins.functions.answer _ _ _ _ = builtins.functions.answer _ _ _ _
    rw [answer_builtins, answer_builtins, last, terminal]
  | false =>
    change empty.functions.answer _ _ _ _ = empty.functions.answer _ _ _ _
    rw [answer_empty, answer_empty]

end TreeQuery
