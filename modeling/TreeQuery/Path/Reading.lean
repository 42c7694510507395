import TreeQuery.Path.Error

namespace TreeQuery.Path

/-- A fault behind which no other reading of the text is tried. -/
inductive Breakage where
  | unknownAxis (name : List Char)
  | missingNodeTest (axis : Axis)
  /-- The digits, and the text from them on. -/
  | positionOutOfRange (digits rest : List Char)
  deriving DecidableEq, Repr

/-- What reading an `α` off the front of `s` comes to. -/
inductive Reading (α : Type) (s : List Char) where
  | read (value : α) (rest : List Char) (shorter : rest.length < s.length)
  /-- There is none; reading got as far as `stop`, where something else was `sought`. -/
  | absent (stop : List Char) (sought : Sought)
  | broken (cause : Breakage)

/-- Reads an `α` off any text of at most `bound` characters. -/
abbrev Reader (bound : Nat) (α : Type) := (s : List Char) → s.length ≤ bound → Reading α s

namespace Reading

variable {α : Type} {s : List Char}

/-- A reading from a plain result, given that it takes something. -/
def ofOption (sought : Sought) (result : Option (α × List Char))
    (shorter : ∀ value rest, result = some (value, rest) → rest.length < s.length) : Reading α s :=
  match result, shorter with
  | some (value, rest), shorter => .read value rest (shorter value rest rfl)
  | none, _ => .absent s sought

end Reading

/-- The things that repeated reading takes off the front of `s`, and what is left. -/
structure Several (α : Type) (s : List Char) where
  values : List α
  rest : List Char
  notLonger : rest.length ≤ s.length

/-- What is left of a text keeps the bound on the text. -/
theorem rest_within {bound : Nat} {s rest : List Char} (h : s.length ≤ bound)
    (shorter : rest.length < s.length) : rest.length ≤ bound :=
  Nat.le_trans (Nat.le_of_lt shorter) h

/-- Reads until there is none any more. -/
def several {α : Type} {bound : Nat} (one : Reader bound α) (s : List Char)
    (h : s.length ≤ bound) : Except Breakage (Several α s) :=
  match one s h with
  | .absent _ _ => .ok ⟨[], s, Nat.le_refl _⟩
  | .broken cause => .error cause
  | .read value rest shorter =>
    match several one rest (rest_within h shorter) with
    | .error cause => .error cause
    | .ok more => .ok ⟨value :: more.values, more.rest, by have := more.notLonger; omega⟩
termination_by s.length

theorem length_dropWhile_le {α : Type} (p : α → Bool) (s : List α) :
    (s.dropWhile p).length ≤ s.length :=
  (List.dropWhile_suffix p).length_le

end TreeQuery.Path
