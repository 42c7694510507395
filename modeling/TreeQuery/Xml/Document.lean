import TreeQuery.Dictionary
import TreeQuery.Xml.Reference
import TreeQuery.Xml.Token

namespace TreeQuery.Xml

/-- A part of a document. -/
inductive Content where
  /-- An element and its attributes, both by what follows the colon of their names. `offset` counts the
  bytes before it. -/
  | element (offset : Nat) (name : String) (attributes : Dictionary String)
    (content : List Content)
  /-- Text with nothing but text before it up to the last tag or aside. -/
  | text (offset : Nat) (text : String)
  /-- A comment or a processing instruction. -/
  | aside

/-- The parts of a document, of which one is an element and the others stand aside. -/
structure Document where
  content : List Content

/-- The name spaces in scope: qualifiers and what they stand for, innermost first. -/
abbrev Scope := List (String × String)

def xmlSpace : String := "http://www.w3.org/XML/1998/namespace"

def xmlnsSpace : String := "http://www.w3.org/2000/xmlns/"

/-- The attributes of one start tag read so far, the latest first. -/
structure TagAttributes where
  declared : Scope := []
  attributes : List (QName × String) := []

/-- Adds an attribute, which may be a declaration of a name space. -/
def TagAttributes.add? (tag : TagAttributes) (written : WrittenAttribute) : Option TagAttributes := do
  let value := String.ofList (← attributeValue? [] written.raw)
  let ⟨qualifier, base⟩ := written.name
  if qualifier = "xmlns" then
    if value = xmlnsSpace ∨ decide (base = "xml") ≠ decide (value = xmlSpace) ∨
        base ∈ tag.declared.map (·.1) then
      none
    else if value = xmlSpace then pure tag
    else pure { tag with declared := (base, value) :: tag.declared }
  else if base = "xmlns" then
    if value = xmlSpace ∨ value = xmlnsSpace then none else pure tag
  else pure { tag with attributes := (written.name, value) :: tag.attributes }

/-- The name space of an attribute; an unqualified one has none. -/
def spaceOf? (scope : Scope) (name : QName) : Option (Option String) :=
  if name.qualifier = "" then some none
  else if name.qualifier = "xml" then some (some xmlSpace)
  else (scope.lookup name.qualifier).map some

/-- The attributes without what qualifies them, if no two have the same name in the same name space. The
first of several that differ in their name spaces alone is kept. -/
def TagAttributes.unqualified? (tag : TagAttributes) (scope : Scope) :
    Option (Dictionary String) := do
  let names ← tag.attributes.mapM fun (name, _) => do pure (← spaceOf? scope name, name.base)
  if names.eraseDups.length = names.length then
    pure (.ofList (tag.attributes.map fun (name, value) => (name.base, value)))
  else none

/-- An element whose end tag has not come yet; its content so far is in reverse. -/
structure OpenElement where
  offset : Nat
  name : QName
  attributes : Dictionary String
  scope : Scope
  content : List Content := []

/-- A document that is being read: the elements that are open, innermost first, and in reverse the
content outside of all elements. -/
structure Partial where
  opened : List OpenElement := []
  outside : List Content := []

namespace Partial

/-- Adds a whole part to the innermost open element. -/
def add (p : Partial) (part : Content) : Partial :=
  match p.opened with
  | [] => { p with outside := part :: p.outside }
  | e :: outer => { p with opened := { e with content := part :: e.content } :: outer }

/-- Adds text to the innermost open element; right behind other text it becomes one with that. -/
def addText? (p : Partial) (offset : Nat) (text : List Char) : Option Partial :=
  match p.opened with
  | [] => none
  | e :: outer =>
    let content := match e.content with
      | .text start before :: rest => .text start (before ++ String.ofList text) :: rest
      | content => .text offset (String.ofList text) :: content
    some { p with opened := { e with content } :: outer }

/-- The innermost open element ends. -/
def close? (p : Partial) : Option Partial :=
  match p.opened with
  | [] => none
  | e :: outer =>
    some ({ p with opened := outer }.add
      (.element e.offset e.name.base e.attributes e.content.reverse))

def isElement : Content → Bool
  | .element .. => true
  | _ => false

/-- An element starts. -/
def open? (p : Partial) (offset : Nat) (name : QName) (written : List WrittenAttribute) :
    Option Partial := do
  let tag ← written.foldlM TagAttributes.add? {}
  let outer := (p.opened.head?.map (·.scope)).getD []
  let scope := tag.declared ++ outer
  let attributes ← tag.unqualified? scope
  if name.qualifier = "xmlns" ∨
      (name.qualifier ≠ "" ∧ (scope.lookup name.qualifier).isNone) ∨
      (p.opened.isEmpty ∧ p.outside.any isElement) then
    none
  else pure { p with opened := ⟨offset, name, attributes, scope, []⟩ :: p.opened }

/-- Goes on with one more piece. -/
def step? (p : Partial) (token : Token) : Option Partial := do
  match token.piece with
  | .startTag name attributes closed =>
    let p ← p.open? token.offset name attributes
    if closed then p.close? else pure p
  | .endTag name =>
    if p.opened.head?.map (·.name) = some name then p.close? else none
  | .text raw =>
    if p.opened.isEmpty then
      if raw.all isSpace then pure p else none
    else p.addText? token.offset (← textOf? [] false raw)
  | .plain raw => p.addText? token.offset (plainText [] raw)
  | .aside => pure (p.add .aside)

/-- The whole document, if every element has ended and there is one. -/
def document? (p : Partial) : Option Document :=
  if p.opened.isEmpty ∧ p.outside.any isElement then some ⟨p.outside.reverse⟩ else none

end Partial

/-- Reads a document. -/
def Document.ofText? (text : String) : Option Document := do
  let p ← (← tokens? text).foldlM Partial.step? {}
  p.document?

end TreeQuery.Xml
