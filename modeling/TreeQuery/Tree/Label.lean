import TreeQuery.Dictionary
import TreeQuery.Tree.Basic

namespace TreeQuery

/-- What a node carries besides its children. -/
structure Label where
  name : String
  value : Option String := none
  offset : Option UInt64 := none
  attributes : Dictionary String := {}
  deriving DecidableEq, Inhabited

namespace Tree

/-- A node with nothing but a name. -/
def named (name : String) : Tree Label := ⟨{ name }, []⟩

/-- A terminal: a name and a value. -/
def terminal (name value : String) : Tree Label := ⟨{ name, value := some value }, []⟩

def withValue (t : Tree Label) (value : String) : Tree Label :=
  { t with label := { t.label with value := some value } }

def withOffset (t : Tree Label) (offset : UInt64) : Tree Label :=
  { t with label := { t.label with offset := some offset } }

/-- Sets an attribute, over an older one with the same key. -/
def withAttribute (t : Tree Label) (key value : String) : Tree Label :=
  { t with label := { t.label with attributes := t.label.attributes.insert key value } }

/-- Adds a child behind the others. -/
def withChild (t child : Tree Label) : Tree Label :=
  { t with children := t.children ++ [child] }

/-- A terminal has a value and no children. -/
def isTerminal (t : Tree Label) : Bool := t.label.value.isSome && t.children.isEmpty

end Tree

end TreeQuery
