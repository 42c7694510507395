import TreeQuery.Json.Numeral
import TreeQuery.Json.Text

namespace TreeQuery.Json

/-- Something read off the front of `s`, and what is left, unless the text broke off. -/
structure Scan (α : Type) (s : List Char) where
  value : α
  rest : Option { r : List Char // r.length < s.length }

/-- The parts of an array or object, the fault in place of a further part, and what is left behind the
closing bracket if it was reached. -/
structure Sequence (α : Type) (s : List Char) where
  parts : List α
  fault : Option Fault
  rest : Option { r : List Char // r.length < s.length }

def isBlank (c : Char) : Bool := c = ' ' || c = '\n' || c = '\t' || c = '\r'

def skipBlanks (s : List Char) : List Char := s.dropWhile isBlank

theorem length_skipBlanks_le (s : List Char) : (skipBlanks s).length ≤ s.length :=
  (List.dropWhile_suffix isBlank).length_le

/-- What stands after some parts of an array or object. -/
inductive Next (s : List Char) where
  | closed (rest : List Char) (shorter : rest.length < s.length)
  | part (rest : List Char) (notLonger : rest.length ≤ s.length)
  | fault (fault : Fault)

/-- Looks for the closing bracket, or for the comma that every part but the first needs. -/
def findNext (closing : Char) (first : Bool) (s : List Char) : Next s :=
  have bound := length_skipBlanks_le s
  match eq : skipBlanks s with
  | [] => .fault .unfinished
  | c :: rest =>
    have : rest.length < s.length := by rw [eq, List.length_cons] at bound; omega
    if c = closing then .closed rest this
    else if first then .part (c :: rest) (by rw [List.length_cons]; omega)
    else if c = ',' then .part rest (by omega)
    else .fault .malformed

/-- Reads the parts of an array or object up to its closing bracket. -/
def readSequence {α : Type} {bound : Nat}
    (part : (t : List Char) → t.length < bound → Except Fault (Scan α t)) (closing : Char)
    (first : Bool) (s : List Char) (h : s.length < bound) : Sequence α s :=
  match findNext closing first s with
  | .fault fault => ⟨[], some fault, none⟩
  | .closed rest shorter => ⟨[], none, some ⟨rest, shorter⟩⟩
  | .part t notLonger =>
    match part t (by omega) with
    | .error fault => ⟨[], some fault, none⟩
    | .ok ⟨value, none⟩ => ⟨[value], none, none⟩
    | .ok ⟨value, some ⟨rest, shorter⟩⟩ =>
      let more := readSequence part closing false rest (by omega)
      ⟨value :: more.parts, more.fault, more.rest.map fun r => ⟨r.1, by have := r.2; omega⟩⟩
termination_by s.length

/-- Reads a key, a colon and a value. -/
def readMember {bound : Nat} (value : (t : List Char) → t.length < bound → Scan Value t)
    (s : List Char) (h : s.length < bound) : Except Fault (Scan Member s) :=
  have beforeKey := length_skipBlanks_le s
  match quote : skipBlanks s with
  | [] => .error .unfinished
  | '"' :: t =>
    match text : takeText [] t with
    | .error fault => .error fault
    | .ok (key, t') =>
      have beforeColon := length_skipBlanks_le t'
      have inKey := takeText_shorter text
      match colon : skipBlanks t' with
      | [] => .ok ⟨.mk key (.broken .unfinished), none⟩
      | ':' :: t'' =>
        have : t''.length < s.length := by
          rw [quote, List.length_cons] at beforeKey
          rw [colon, List.length_cons] at beforeColon
          omega
        let read := value t'' (by omega)
        .ok ⟨.mk key read.value, read.rest.map fun r => ⟨r.1, by have := r.2; omega⟩⟩
      | _ => .ok ⟨.mk key (.broken .malformed), none⟩
  | _ => .error .malformed

/-- Takes the rest of a word letter by letter. -/
def takeWord : List Char → List Char → Except Fault (List Char)
  | [], s => .ok s
  | _ :: _, [] => .error .unfinished
  | e :: word, c :: s => if c = e then takeWord word s else .error .malformed

theorem takeWord_notLonger {word s rest : List Char} (h : takeWord word s = .ok rest) :
    rest.length ≤ s.length := by
  induction word generalizing s with
  | nil =>
    cases h
    exact Nat.le_refl _
  | cons e word ih =>
    cases s with
    | nil => cases h
    | cons c s =>
      rw [takeWord] at h
      split at h
      · have := ih h
        simp only [List.length_cons]
        omega
      · cases h

/-- Reads a word whose first letter is already taken, as this value. -/
def readWord (value : Value) (word : List Char) {c : Char} (s : List Char) : Scan Value (c :: s) :=
  match h : takeWord word s with
  | .ok rest =>
    ⟨value, some ⟨rest, by have := takeWord_notLonger h; simp only [List.length_cons]; omega⟩⟩
  | .error fault => ⟨.broken fault, none⟩

/-- Reads a number; one that is too large breaks the text off. -/
def readNumber (s : List Char) : Scan Value s :=
  match h : takeNumeral s with
  | .error fault => ⟨.broken fault, none⟩
  | .ok (numeral, rest) =>
    match numeral.value with
    | .ok n => ⟨.number n, some ⟨rest, takeNumeral_shorter h⟩⟩
    | .error fault => ⟨.broken fault, none⟩

/-- Reads a value with nothing blank before it. Arrays and objects take up one level each, and the last
level is never used. -/
def readBare {bound : Nat} (inner : (t : List Char) → t.length < bound → Scan Value t)
    (mayNest : Bool) (s : List Char) (h : s.length ≤ bound) : Scan Value s :=
  match s with
  | [] => ⟨.broken .unfinished, none⟩
  | '"' :: t =>
    match text : takeText [] t with
    | .ok (value, rest) =>
      ⟨.text value, some ⟨rest, by
        have := takeText_shorter text
        simp only [List.length_cons]
        omega⟩⟩
    | .error fault => ⟨.broken fault, none⟩
  | '[' :: t =>
    if mayNest then
      let items := readSequence (fun u shorter => .ok (inner u shorter)) ']' true t h
      ⟨.array items.parts items.fault,
        items.rest.map fun r => ⟨r.1, by have := r.2; simp only [List.length_cons]; omega⟩⟩
    else ⟨.array [] (some .malformed), none⟩
  | '\x7b' :: t =>
    if mayNest then
      let members := readSequence (readMember inner) '\x7d' true t h
      ⟨.object members.parts members.fault,
        members.rest.map fun r => ⟨r.1, by have := r.2; simp only [List.length_cons]; omega⟩⟩
    else ⟨.object [] (some .malformed), none⟩
  | 'n' :: t => readWord .null ['u', 'l', 'l'] t
  | 't' :: t => readWord (.boolean true) ['r', 'u', 'e'] t
  | 'f' :: t => readWord (.boolean false) ['a', 'l', 's', 'e'] t
  | c :: t =>
    if c = '-' ∨ c.isDigit then readNumber (c :: t)
    else ⟨.broken .malformed, none⟩

/-- Reads a value, with `levels` left for arrays and objects. -/
def readValue (levels : Nat) (s : List Char) : Scan Value s :=
  have bound := length_skipBlanks_le s
  let read := readBare (fun t (_ : t.length < (skipBlanks s).length) => readValue (levels - 1) t)
    (1 < levels) (skipBlanks s) (Nat.le_refl _)
  ⟨read.value, read.rest.map fun r => ⟨r.1, by have := r.2; omega⟩⟩
termination_by s.length

/-- One more than the deepest nesting that is read. -/
def nestingLimit : Nat := 128

/-- The value that a text holds, and the fault of what follows it, if anything does. -/
def read (text : String) : Value × Option Fault :=
  match readValue nestingLimit text.toList with
  | ⟨value, none⟩ => (value, none)
  | ⟨value, some ⟨rest, _⟩⟩ => (value, if skipBlanks rest = [] then none else some .malformed)

end TreeQuery.Json
