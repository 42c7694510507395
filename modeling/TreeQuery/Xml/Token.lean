import TreeQuery.Text.Bytes
import TreeQuery.Xml.Character

namespace TreeQuery.Xml

/-- What is left of a document, and the number of bytes before it. -/
structure Cursor where
  rest : List Char
  offset : Nat

/-- A name and what qualifies it, which is empty where nothing does. -/
structure QName where
  qualifier : String
  base : String
  deriving DecidableEq, Repr

/-- An attribute as written, with its value still as it stands between the quotes. -/
structure WrittenAttribute where
  name : QName
  raw : List Char

/-- A piece of a document. -/
inductive Piece where
  /-- A start tag; `closed` if it is an end tag too. -/
  | startTag (name : QName) (attributes : List WrittenAttribute) (closed : Bool)
  | endTag (name : QName)
  /-- Text in which references may occur. -/
  | text (raw : List Char)
  /-- Text that is taken as it is written. -/
  | plain (raw : List Char)
  /-- A comment or a processing instruction. -/
  | aside

/-- A piece and the number of bytes before it. -/
structure Token where
  offset : Nat
  piece : Piece

/-- Splits a text around the first occurrence of `mark`; `before` holds what came earlier, last
character first. -/
def splitAround? (mark before : List Char) : List Char → Option (List Char × List Char)
  | [] => if mark = [] then some (before.reverse, []) else none
  | c :: rest =>
    if mark.isPrefixOf (c :: rest) then some (before.reverse, (c :: rest).drop mark.length)
    else splitAround? mark (c :: before) rest

/-- Whether `mark` occurs in a text. -/
def occursIn (mark text : List Char) : Bool := (splitAround? mark [] text).isSome

namespace Cursor

def startsWith (c : Cursor) (mark : String) : Bool := mark.toList.isPrefixOf c.rest

/-- Goes past `mark`, which has to come next. -/
def past? (mark : String) (c : Cursor) : Option Cursor :=
  if c.startsWith mark then
    some ⟨c.rest.drop mark.toList.length, c.offset + mark.utf8ByteSize⟩
  else none

/-- Takes the characters that satisfy `p`. -/
def takeRun (p : Char → Bool) (c : Cursor) : List Char × Cursor :=
  let run := c.rest.takeWhile p
  (run, ⟨c.rest.dropWhile p, c.offset + Text.byteLength run⟩)

def skipSpaces (c : Cursor) : Cursor := (c.takeRun isSpace).2

/-- Takes the text before `mark` and goes past `mark`. -/
def takeUpTo? (mark : String) (c : Cursor) : Option (List Char × Cursor) := do
  let (front, rest) ← splitAround? mark.toList [] c.rest
  if front.all isAllowed then
    pure (front, ⟨rest, c.offset + Text.byteLength front + mark.utf8ByteSize⟩)
  else none

/-- Takes a name with at most one colon. -/
def takeQName? (c : Cursor) : Option (QName × Cursor) :=
  let (run, c) := c.takeRun isNameChar
  let startsName (name : List Char) : Bool := (name.head?.map isNameStart).getD false
  match run.dropWhile (· ≠ ':') with
  | [] => if startsName run then some (⟨"", String.ofList run⟩, c) else none
  | _ :: base =>
    let qualifier := run.takeWhile (· ≠ ':')
    if ':' ∉ base ∧ startsName base ∧ (qualifier = [] ∨ startsName qualifier) then
      some (⟨String.ofList qualifier, String.ofList base⟩, c)
    else none

/-- Takes an attribute: a name, an equals sign, and a value in single or double quotes. -/
def takeAttribute? (c : Cursor) : Option (WrittenAttribute × Cursor) := do
  let (name, c) ← c.takeQName?
  let c := (← c.skipSpaces.past? "=").skipSpaces
  let quote ← c.rest.head?
  if quote = '"' ∨ quote = '\'' then
    let c ← c.past? (String.ofList [quote])
    let (raw, c) ← c.takeUpTo? (String.ofList [quote])
    if '<' ∈ raw then none else pure (⟨name, raw⟩, c)
  else none

/-- Takes up to `count` attributes of a start tag and its end, and tells whether it is an end tag
too. -/
def takeAttributes? (c : Cursor) : (count : Nat) → Option (List WrittenAttribute × Bool × Cursor)
  | 0 => none
  | count + 1 =>
    let next := c.skipSpaces
    match next.past? "/>", next.past? ">" with
    | some c, _ => some ([], true, c)
    | none, some c => some ([], false, c)
    | none, none => do
      if next.offset = c.offset then none
      else
        let (first, c) ← next.takeAttribute?
        let (more, closed, c) ← c.takeAttributes? count
        pure (first :: more, closed, c)

/-- Takes a processing instruction. One that looks like a declaration is refused. -/
def takeInstruction? (c : Cursor) : Option (Piece × Cursor) := do
  if c.startsWith "<?xml " then none
  else
    let (target, c) := (← c.past? "<?").takeRun isNameChar
    if (target.head?.map isNameStart).getD false then
      let (_, c) ← c.skipSpaces.takeUpTo? "?>"
      pure (.aside, c)
    else none

/-- Takes a comment, which holds no two hyphens in a row and does not end in one. -/
def takeComment? (c : Cursor) : Option (Piece × Cursor) := do
  let (text, c) ← (← c.past? "<!--").takeUpTo? "-->"
  if occursIn ['-', '-'] text ∨ text.getLast? = some '-' then none
  else pure (.aside, c)

/-- Takes the next piece, which holds at most `length` characters. -/
def takePiece? (length : Nat) (c : Cursor) : Option (Piece × Cursor) :=
  if c.startsWith "</" then do
    let (name, c) ← (← c.past? "</").takeQName?
    let c ← c.skipSpaces.past? ">"
    pure (.endTag name, c)
  else if c.startsWith "<!--" then c.takeComment?
  else if c.startsWith "<![CDATA[" then do
    let (raw, c) ← (← c.past? "<![CDATA[").takeUpTo? "]]>"
    pure (.plain raw, c)
  else if c.startsWith "<!" then none
  else if c.startsWith "<?" then c.takeInstruction?
  else if c.startsWith "<" then do
    let (name, c) ← (← c.past? "<").takeQName?
    let (attributes, closed, c) ← c.takeAttributes? length
    pure (.startTag name attributes closed, c)
  else
    let (raw, c) := c.takeRun (· ≠ '<')
    if raw.all isAllowed ∧ ¬ occursIn [']', ']', '>'] raw then some (.text raw, c) else none

/-- Takes all pieces of at most `length` characters. No piece is empty, so there are no more pieces
than characters, and within a piece no more attributes. -/
def takeTokens? (c : Cursor) : (length : Nat) → Option (List Token)
  | 0 => if c.rest = [] then some [] else none
  | length + 1 => do
    if c.rest = [] then pure []
    else
      let (piece, next) ← c.takePiece? (length + 1)
      let more ← next.takeTokens? length
      pure (⟨c.offset, piece⟩ :: more)

/-- Goes past white space that has to be there unless the declaration ends. -/
def pastBlank? (c : Cursor) : Option Cursor :=
  let next := c.skipSpaces
  if next.offset ≠ c.offset ∨ c.startsWith "?>" ∨ c.rest = [] then some next else none

/-- Goes past an attribute of the declaration and the white space behind it, if it starts with
`name`. -/
def pastSetting? (name : String) (c : Cursor) : Option Cursor := do
  if c.startsWith name then
    let (_, c) ← c.takeAttribute?
    c.pastBlank?
  else pure c

/-- Goes past the declaration that a document may start with. -/
def pastDeclaration? (c : Cursor) : Option Cursor := do
  if c.startsWith "<?xml " then
    let c := (← c.past? "<?xml").skipSpaces
    if c.startsWith "version" then
      let c ← c.pastSetting? "version"
      let c ← c.pastSetting? "encoding"
      let c ← if c.startsWith "standalone" then c.takeAttribute?.map (·.2) else pure c
      c.skipSpaces.past? "?>"
    else none
  else pure c

/-- Goes past a byte order mark. -/
def pastMark (c : Cursor) : Cursor := (c.past? "\uFEFF").getD c

end Cursor

/-- The pieces of a whole document behind its declaration. -/
def tokens? (text : String) : Option (List Token) := do
  let c ← (Cursor.mk text.toList 0).pastMark.pastDeclaration?
  c.takeTokens? c.rest.length

end TreeQuery.Xml
