import TreeQuery.Text.Blank
import TreeQuery.Tree.Handle
import TreeQuery.Xml.Document

/-!
Documents as trees that can be queried. Comments, instructions and blank texts do not show. An element
with text and no elements inside shows as a terminal with its first text that is not blank as the
value; in all other elements each text that is not blank shows as a node `#text`. What is hidden counts
when nodes are numbered, and the parent of a node is what it stands in, whether that shows or not.
-/

namespace TreeQuery.Xml

/-- A text shows if not all of it is white space. -/
def isSignificant (text : String) : Bool := !text.toList.all Text.isBlank

/-- What a node of a document is. -/
inductive Part where
  | document
  | element (offset : Nat) (name : String) (attributes : Dictionary String)
  | text (offset : Nat) (text : String)
  | aside

/-- A part of a document with its number in the order of the document. -/
structure Item where
  place : Nat
  part : Part

/-- A part of a document with all parts inside. -/
abbrev Node := Tree Item

mutual
/-- One part of the content as a node, numbered from `start`. -/
def Content.node (start : Nat) : Content → Node
  | .element offset name attributes content =>
    ⟨⟨start, .element offset name attributes⟩, nodes (start + 1) content⟩
  | .text offset text => ⟨⟨start, .text offset text⟩, []⟩
  | .aside => ⟨⟨start, .aside⟩, []⟩
/-- Several parts numbered one after the other. -/
def nodes (start : Nat) : List Content → List Node
  | [] => []
  | c :: cs =>
    let first := c.node start
    first :: nodes (start + first.size) cs
end

namespace Node

def place (n : Node) : Nat := n.label.place

def isElement (n : Node) : Bool :=
  match n.label.part with
  | .element .. => true
  | _ => false

/-- The text of a node that is text and is not blank. -/
def text? (n : Node) : Option String :=
  match n.label.part with
  | .text _ text => if isSignificant text then some text else none
  | _ => none

def isText (n : Node) : Bool := n.text?.isSome

/-- An element with text that is not blank and with no elements inside. -/
def isTextOnly (n : Node) : Bool :=
  n.isElement && !n.children.any isElement && n.children.any isText

/-- Whether a node shows where the content of its parent does. -/
def shows (n : Node) : Bool := n.isElement || n.isText

/-- The children that show. -/
def inside (n : Node) : List Node := if n.isTextOnly then [] else n.children.filter shows

/-- What a query sees of one node. Nothing asks for the name or the offset of an aside. -/
def seen (n : Node) : Placed :=
  match n.label.part with
  | .document => { name := "#document", offset := some 0, place := n.place }
  | .element offset name attributes =>
    { name, value := if n.isTextOnly then n.children.findSome? text? else none,
      offset := some (UInt64.ofNat offset), attributes, place := n.place }
  | .text offset text =>
    { name := "#text", value := some text, offset := some (UInt64.ofNat offset), place := n.place }
  | .aside => { name := "", place := n.place }

mutual
/-- The nodes that show at a node and below it. -/
def view : Node → Tree Node
  | ⟨item, children⟩ =>
    let n : Node := ⟨item, children⟩
    ⟨n, if n.isTextOnly then [] else views children⟩
/-- The nodes that show among several nodes and below them. -/
def views : List Node → List (Tree Node)
  | [] => []
  | c :: cs => if c.shows then c.view :: views cs else views cs
end

/-- What a query sees at a node and below it. -/
def shown (n : Node) : Tree Placed := n.view.map seen

/-- The numbers of all nodes below a node, each with what the query sees at its parent. -/
def links (n : Node) : List (Nat × Tree Placed) :=
  n.preorder.flatMap fun (parent : Node) =>
    let shown := parent.shown
    parent.children.map fun (child : Node) => (child.place, shown)

end Node

namespace Document

variable (d : Document)

/-- The whole document, numbered from 0. -/
def node : Node := ⟨⟨0, .document⟩, nodes 1 d.content⟩

/-- All parents as the document has them. -/
def index : ParentIndex := ⟨d.node.shown, .ofList d.node.links⟩

/-- The handle on the node `#document`, from which all that shows is reached. -/
def root : Handle := d.index.root

/-- The tree of what shows. -/
def tree : Tree Label := d.node.shown.unplaced

end Document

end TreeQuery.Xml

namespace TreeQuery.Tree

/-- The tree of a document that is given as text. -/
def ofXml? (text : String) : Option (Tree Label) := (Xml.Document.ofText? text).map (·.tree)

end TreeQuery.Tree
