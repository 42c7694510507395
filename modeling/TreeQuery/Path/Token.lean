import TreeQuery.Path.Expr
import TreeQuery.Path.Reading

namespace TreeQuery.Path

/-- The characters that may stand around bars and inside brackets. -/
def isSpace (c : Char) : Bool := c = ' ' || c = '\t' || c = '\r' || c = '\n'

def skipSpaces (s : List Char) : List Char := s.dropWhile isSpace

/-- Letters and digits of ASCII, and `_ - . $ #`. -/
def isNameChar (c : Char) : Bool :=
  c.isAlphanum || c = '_' || c = '-' || c = '.' || c = '$' || c = '#'

/-- The characters of axis names. -/
def isAxisChar (c : Char) : Bool := c.isLower || c = '-'

/-- The first character of a function's name. -/
def isFunctionStart (c : Char) : Bool := c.isAlpha || c = '_'

/-- The other characters of a function's name. -/
def isFunctionChar (c : Char) : Bool := c.isAlphanum || c = '_'

/-- Positions are below 2⁶⁴. -/
def positionLimit : Nat := 0x10000000000000000

theorem length_skipSpaces_le (s : List Char) : (skipSpaces s).length ≤ s.length :=
  length_dropWhile_le isSpace s

/-- Takes a nonempty run of characters that satisfy `p`. -/
def takeRun (p : Char → Bool) (s : List Char) : Option (List Char × List Char) :=
  match s.takeWhile p with
  | [] => none
  | run => some (run, s.dropWhile p)

theorem takeRun_shorter {p : Char → Bool} {s run rest : List Char}
    (h : takeRun p s = some (run, rest)) : rest.length < s.length := by
  have whole := congrArg List.length (List.takeWhile_append_dropWhile (p := p) (l := s))
  rw [List.length_append] at whole
  unfold takeRun at h
  split at h
  · cases h
  · rename_i nonempty
    simp only [Option.some.injEq, Prod.mk.injEq] at h
    obtain ⟨rfl, rfl⟩ := h
    have : 0 < (s.takeWhile p).length := List.length_pos_iff.mpr nonempty
    omega

/-- Takes what is left up to the next `quote`, and that quote. -/
def takeUntil (quote : Char) (s : List Char) : Option (List Char × List Char) :=
  match s.dropWhile (· ≠ quote) with
  | [] => none
  | _ :: rest => some (s.takeWhile (· ≠ quote), rest)

/-- Takes a value in single or double quotes. -/
def takeQuoted : List Char → Option (List Char × List Char)
  | '\'' :: s => takeUntil '\'' s
  | '"' :: s => takeUntil '"' s
  | _ => none

theorem takeUntil_shorter {quote : Char} {s value rest : List Char}
    (h : takeUntil quote s = some (value, rest)) : rest.length < s.length := by
  unfold takeUntil at h
  have le := length_dropWhile_le (· ≠ quote) s
  split at h
  · cases h
  · rename_i eq
    rw [eq, List.length_cons] at le
    simp only [Option.some.injEq, Prod.mk.injEq] at h
    obtain ⟨-, rfl⟩ := h
    omega

theorem takeQuoted_shorter {s value rest : List Char} (h : takeQuoted s = some (value, rest)) :
    rest.length < s.length := by
  unfold takeQuoted at h
  split at h
  · exact Nat.lt_succ_of_lt (takeUntil_shorter h)
  · exact Nat.lt_succ_of_lt (takeUntil_shorter h)
  · cases h

/-- Takes `@name = 'value'`. -/
def takeAttribute : List Char → Option (Predicate × List Char)
  | '@' :: s =>
    match takeRun isNameChar s with
    | none => none
    | some (name, s) =>
      match skipSpaces s with
      | '=' :: s =>
        (takeQuoted (skipSpaces s)).map fun (value, rest) =>
          (.attribute (String.ofList name) (String.ofList value), rest)
      | _ => none
  | _ => none

theorem takeAttribute_shorter {s : List Char} {p : Predicate} {rest : List Char}
    (h : takeAttribute s = some (p, rest)) : rest.length < s.length := by
  unfold takeAttribute at h
  split at h
  · rename_i s
    split at h
    · cases h
    · rename_i name s' run
      have first := takeRun_shorter run
      have spaces := length_skipSpaces_le s'
      split at h
      · rename_i s'' eq
        rw [eq, List.length_cons] at spaces
        obtain ⟨⟨value, r⟩, quoted, same⟩ := Option.map_eq_some_iff.mp h
        obtain ⟨-, rfl⟩ := Prod.mk.inj same
        have second := takeQuoted_shorter quoted
        have more := length_skipSpaces_le s''
        simp only [List.length_cons]
        omega
      · cases h
  · cases h

/-- Takes `?name`. -/
def takeFunction : List Char → Option (Predicate × List Char)
  | '?' :: c :: s =>
    if isFunctionStart c then
      some (.function (String.ofList (c :: s.takeWhile isFunctionChar)),
        s.dropWhile isFunctionChar)
    else none
  | _ => none

theorem takeFunction_shorter {s : List Char} {p : Predicate} {rest : List Char}
    (h : takeFunction s = some (p, rest)) : rest.length < s.length := by
  unfold takeFunction at h
  split at h
  · rename_i c s
    split at h
    · simp only [Option.some.injEq, Prod.mk.injEq] at h
      obtain ⟨-, rfl⟩ := h
      have := length_dropWhile_le isFunctionChar s
      simp only [List.length_cons]
      omega
    · cases h
  · cases h

/-- Takes digits that are all there is up to the closing bracket. -/
def takePosition (s : List Char) : Option (List Char × List Char) :=
  match takeRun Char.isDigit s with
  | none => none
  | some (digits, rest) =>
    match skipSpaces rest with
    | ']' :: _ => some (digits, rest)
    | _ => none

theorem takePosition_shorter {s digits rest : List Char}
    (h : takePosition s = some (digits, rest)) : rest.length < s.length := by
  unfold takePosition at h
  split at h
  · cases h
  · rename_i run
    split at h
    · simp only [Option.some.injEq, Prod.mk.injEq] at h
      obtain ⟨-, rfl⟩ := h
      exact takeRun_shorter run
    · cases h

/-- Takes an axis: `/` for the axis that most steps behind a double slash are on, dots, or a full name
and `::`. Two dots are tried before one. -/
def readAxis (s : List Char) : Reading Axis s :=
  match s with
  | '/' :: rest => .read .descendantOrSelf rest (by simp)
  | '.' :: '.' :: rest => .read .parent rest (by simp only [List.length_cons]; omega)
  | '.' :: rest => .read .self rest (by simp)
  | s =>
    match h : takeRun isAxisChar s with
    | some (name, ':' :: ':' :: rest) =>
      match Axis.ofName? (String.ofList name) with
      | some axis =>
        .read axis rest (by have := takeRun_shorter h; simp only [List.length_cons] at this; omega)
      | none => .broken (.unknownAxis name)
    | some (_, rest) => .absent rest .colons
    | none => .absent s .run

/-- Takes a node test. -/
def takeTest : List Char → Option (NodeTest × List Char)
  | '*' :: rest => some (.any, rest)
  | s => (takeRun isNameChar s).map fun (name, rest) => (.named (String.ofList name), rest)

theorem takeTest_shorter {s : List Char} {test : NodeTest} {rest : List Char}
    (h : takeTest s = some (test, rest)) : rest.length < s.length := by
  unfold takeTest at h
  split at h
  · simp only [Option.some.injEq, Prod.mk.injEq] at h
    obtain ⟨-, rfl⟩ := h
    simp
  · obtain ⟨⟨name, r⟩, run, same⟩ := Option.map_eq_some_iff.mp h
    obtain ⟨-, rfl⟩ := Prod.mk.inj same
    exact takeRun_shorter run

end TreeQuery.Path
