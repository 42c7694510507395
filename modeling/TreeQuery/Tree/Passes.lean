import TreeQuery.Text.Bytes
import TreeQuery.Tree.Label
import TreeQuery.Tree.Visit

namespace TreeQuery.Tree

/-- Drops all offsets and attributes, so that trees can be compared by structure. -/
def stripPositions (t : Tree Label) : Tree Label :=
  t.reviseLabels fun n => { n.label with offset := none, attributes := {} }

/-- An offset and a length whose sum is too large for a word of 64 bits. -/
structure Overflow where
  offset : UInt64
  length : Nat
  deriving DecidableEq, Repr

/-- Where the text of a childless node ends in the source. -/
def ownEnd (label : Label) : Except Overflow (Option Nat) :=
  match label.offset, label.value with
  | some offset, some value =>
    let stop := offset.toNat + value.utf8ByteSize
    if stop < UInt64.size then .ok (some stop) else .error ⟨offset, value.utf8ByteSize⟩
  | _, _ => .ok none

/-- The label of a node with children, with the source text up to `stop` for a value it lacks. -/
def filledLabel (source : List Char) (label : Label) (stop : Option Nat) : Label :=
  match label.value, label.offset, stop with
  | none, some start, some stop =>
    { label with value := (Text.slice? source start.toNat stop).map String.ofList }
  | _, _, _ => label

mutual
/-- Fills in a tree, and tells where its last terminal ends in the source. -/
def fillWithEnd (source : List Char) : Tree Label → Except Overflow (Tree Label × Option Nat)
  | ⟨label, []⟩ => do
    let stop ← ownEnd label
    pure (⟨label, []⟩, stop)
  | ⟨label, child :: more⟩ => do
    let (children, stop) ← fillsWithEnd source (child :: more)
    pure (⟨filledLabel source label stop, children⟩, stop)
/-- Fills in several trees, and tells where the last terminal of all ends. -/
def fillsWithEnd (source : List Char) :
    List (Tree Label) → Except Overflow (List (Tree Label) × Option Nat)
  | [] => pure ([], none)
  | t :: ts => do
    let (t, stop) ← fillWithEnd source t
    let (ts, later) ← fillsWithEnd source ts
    pure (t :: ts, max stop later)
end

/-- Gives every node with children and an offset but no value the source text from its offset to the
end of the last terminal below it. Nothing is filled in if a terminal ends past what a word can count;
the first one then says why. -/
def fillValues (source : String) (t : Tree Label) : Except Overflow (Tree Label) :=
  (fillWithEnd source.toList t).map Prod.fst

/-- The attributes together with the values of the terminal children, by their names; an attribute
that is there already stays, and the first of several terminals with one name counts. -/
def withTerminalValues (attributes : Dictionary String) (children : List (Tree Label)) :
    Dictionary String :=
  children.foldl (fun found child =>
    match child.isTerminal, child.label.value with
    | true, some value => found.insertNew child.label.name value
    | _, _ => found) attributes

/-- Makes the value of every terminal an attribute of its parent. -/
def exposeTerminals (t : Tree Label) : Tree Label :=
  t.reviseLabels fun n =>
    { n.label with attributes := withTerminalValues n.label.attributes n.children }

end TreeQuery.Tree
