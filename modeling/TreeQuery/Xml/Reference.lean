import TreeQuery.Path.Reading
import TreeQuery.Xml.Character

namespace TreeQuery.Xml

/-- The value of a digit, of a hexadecimal one in either case. -/
def digitValue (c : Char) : Nat :=
  if c.isDigit then c.toNat - '0'.toNat
  else if c.isLower then c.toNat - 'a'.toNat + 10
  else c.toNat - 'A'.toNat + 10

def isHexDigit (c : Char) : Bool :=
  c.isDigit || ('a' ≤ c && c ≤ 'f') || ('A' ≤ c && c ≤ 'F')

/-- The character with this number. A number that no character has stands for U+FFFD; one of more than
32 bits, or of a character no document may hold, is refused. -/
def numbered? (digits : List Char) (radix : Nat) : Option Char :=
  let n := digits.foldl (fun n c => n * radix + digitValue c) 0
  if digits = [] ∨ 0x100000000 ≤ n then none
  else
    let c := if n.isValidChar then Char.ofNat n else '\uFFFD'
    if isAllowed c then some c else none

/-- The character an entity stands for. -/
def entity? (name : List Char) : Option Char :=
  match String.ofList name with
  | "lt" => some '<'
  | "gt" => some '>'
  | "amp" => some '&'
  | "quot" => some '"'
  | "apos" => some '\''
  | _ => none

/-- The character that a reference stands for, from what is written between `&` and `;`. -/
def referenced? : List Char → Option Char
  | '#' :: 'x' :: digits => if digits.all isHexDigit then numbered? digits 16 else none
  | '#' :: digits => if digits.all Char.isDigit then numbered? digits 10 else none
  | name => entity? name

/-- Takes a reference behind its `&`. -/
def takeReference (s : List Char) : Option (Char × List Char) :=
  match s.dropWhile (· ≠ ';') with
  | [] => none
  | _ :: rest => (referenced? (s.takeWhile (· ≠ ';'))).map fun c => (c, rest)

theorem takeReference_shorter {s rest : List Char} {c : Char}
    (h : takeReference s = some (c, rest)) : rest.length < s.length := by
  unfold takeReference at h
  have le := Path.length_dropWhile_le (· ≠ ';') s
  split at h
  · cases h
  · rename_i eq
    rw [eq, List.length_cons] at le
    obtain ⟨c', -, same⟩ := Option.map_eq_some_iff.mp h
    obtain ⟨-, rfl⟩ := Prod.mk.inj same
    omega

/-- Adds a character of the text itself to the text so far, last character first. A carriage return
becomes a line feed as soon as something else follows it, and swallows a line feed that does. -/
def pushText (done : List Char) (c : Char) (isLast : Bool) : List Char :=
  let ended := if isLast && c = '\r' then '\n' else c
  match done with
  | '\r' :: before => if c = '\n' then '\n' :: before else ended :: '\n' :: before
  | _ => ended :: done

/-- The text that a document's characters stand for. A referenced character is taken as it is, and so
is the character right behind a reference. -/
def textOf? (done : List Char) (asIs : Bool) (s : List Char) : Option (List Char) :=
  match s with
  | [] => some done.reverse
  | '&' :: rest =>
    match reference : takeReference rest with
    | none => none
    | some (c, rest') =>
      have := takeReference_shorter reference
      textOf? (c :: done) true rest'
  | c :: rest =>
    if asIs then textOf? (c :: done) false rest
    else textOf? (pushText done c rest.isEmpty) false rest
termination_by s.length
decreasing_by
  all_goals simp only [List.length_cons]
  all_goals omega

/-- The text of a section without references. -/
def plainText (done : List Char) : List Char → List Char
  | [] => done.reverse
  | c :: rest => plainText (pushText done c rest.isEmpty) rest

/-- The value that the characters between an attribute's quotes stand for. White space that is not
referenced becomes spaces, one for each line end. -/
def attributeValue? (done : List Char) (s : List Char) : Option (List Char) :=
  match s with
  | [] => some done.reverse
  | '&' :: rest =>
    match reference : takeReference rest with
    | none => none
    | some (c, rest') =>
      have := takeReference_shorter reference
      attributeValue? (c :: done) rest'
  | '\r' :: '\n' :: rest => attributeValue? (' ' :: done) rest
  | c :: rest => attributeValue? ((if isSpace c then ' ' else c) :: done) rest
termination_by s.length
decreasing_by
  all_goals simp only [List.length_cons]
  all_goals omega

end TreeQuery.Xml
