import Std.Data.TreeMap
import TreeQuery.Text.Quoted
import TreeQuery.Tree.Label

/-!
Handles on the nodes of a tree. The nodes are numbered by their place in preorder, and two handles are
the same when their places are, whatever the labels say. A handle may carry an index of parents; one
without it does not know its parent.
-/

namespace TreeQuery

/-- A label together with the place of its node in the preorder of the whole tree. -/
structure Placed extends Label where
  place : Nat
  deriving DecidableEq, Inhabited

namespace Tree

mutual
/-- The tree with its nodes numbered in preorder from `start`. -/
def placedFrom (start : Nat) : Tree Label → Tree Placed
  | ⟨label, children⟩ => ⟨{ label with place := start }, placesFrom (start + 1) children⟩
/-- Several trees numbered one after the other. -/
def placesFrom (start : Nat) : List (Tree Label) → List (Tree Placed)
  | [] => []
  | t :: ts => t.placedFrom start :: placesFrom (start + t.size) ts
end

/-- The tree with its nodes numbered in preorder from 0. -/
def placed (t : Tree Label) : Tree Placed := t.placedFrom 0

/-- The tree without the numbers. -/
def unplaced (t : Tree Placed) : Tree Label := t.map Placed.toLabel

/-- The place of the topmost node. -/
def place (t : Tree Placed) : Nat := t.label.place

mutual
/-- The places count up from the first in preorder. -/
theorem map_place_preorder_placedFrom : ∀ (t : Tree Label) (start : Nat),
    (t.placedFrom start).preorder.map place = List.range' start t.size
  | ⟨_, children⟩, start => by
    rw [placedFrom, preorder, List.map_cons, map_place_preorders_placesFrom children, size,
      Nat.add_comm 1, List.range'_succ]
    rfl
theorem map_place_preorders_placesFrom : ∀ (ts : List (Tree Label)) (start : Nat),
    (preorders (placesFrom start ts)).map place = List.range' start (sizes ts)
  | [], _ => rfl
  | t :: ts, start => by
    rw [placesFrom, preorders, List.map_append, map_place_preorder_placedFrom t,
      map_place_preorders_placesFrom ts, sizes, List.range'_append_1]
end

mutual
theorem unplaced_placedFrom : ∀ (t : Tree Label) (start : Nat),
    (t.placedFrom start).unplaced = t
  | ⟨label, children⟩, start => by
    have := unplaced_placesFrom children (start + 1)
    simp only [unplaced, placedFrom, map, this]
theorem unplaced_placesFrom : ∀ (ts : List (Tree Label)) (start : Nat),
    maps Placed.toLabel (placesFrom start ts) = ts
  | [], _ => rfl
  | t :: ts, start => by
    have := unplaced_placedFrom t start
    rw [unplaced] at this
    rw [placesFrom, maps, this, unplaced_placesFrom ts]
end

/-- Each place occurs once in the preorder of the whole tree. -/
theorem map_place_preorder_placed (t : Tree Label) :
    t.placed.preorder.map place = List.range t.size := by
  rw [placed, map_place_preorder_placedFrom, List.range_eq_range']

theorem unplaced_placed (t : Tree Label) : t.placed.unplaced = t := unplaced_placedFrom t 0

end Tree

/-- The parents of the nodes strictly below one node, by the places of the children. -/
structure ParentIndex where
  top : Tree Placed
  parents : Std.TreeMap Nat (Tree Placed)

/-- A node, and the index its parent is looked up in, if there is one. -/
structure Handle where
  node : Tree Placed
  index : Option ParentIndex := none

namespace ParentIndex

/-- Notes one node as the parent of each of its children. -/
def note (parents : Std.TreeMap Nat (Tree Placed)) (node : Tree Placed) :
    Std.TreeMap Nat (Tree Placed) :=
  node.children.foldl (fun parents child => parents.insert child.place node) parents

/-- Notes the pending nodes and all below them. The children of a node are put in front of the others one
by one, so the last of them comes next. -/
def noteAll (parents : Std.TreeMap Nat (Tree Placed)) :
    List (Tree Placed) → Std.TreeMap Nat (Tree Placed)
  | [] => parents
  | node :: pending => noteAll (note parents node) (node.children.reverse ++ pending)
termination_by pending => Tree.sizes pending
decreasing_by simp [Tree.sizes, Tree.size_eq]

/-- The index of the nodes below `top`. -/
def build (top : Tree Placed) : ParentIndex := ⟨top, noteAll {} [top]⟩

def parent? (index : ParentIndex) (node : Tree Placed) : Option (Tree Placed) :=
  index.parents[node.place]?

/-- The handle on any node, which looks for its parent in this index. -/
def handle (index : ParentIndex) (node : Tree Placed) : Handle := ⟨node, some index⟩

/-- The handle on the node that the index was built from. -/
def root (index : ParentIndex) : Handle := index.handle index.top

end ParentIndex

namespace Handle

/-- A handle that does not know its parent. -/
def plain (node : Tree Placed) : Handle := ⟨node, none⟩

def place (h : Handle) : Nat := h.node.place

/-- Handles are compared by the place of their node. -/
instance : BEq Handle := ⟨fun a b => a.place == b.place⟩

def name (h : Handle) : String := h.node.label.name

def value? (h : Handle) : Option String := h.node.label.value

def offset? (h : Handle) : Option UInt64 := h.node.label.offset

def children (h : Handle) : List Handle := h.node.children.map fun child => ⟨child, h.index⟩

/-- The parent by the index; a handle without an index answers `none`. -/
def parent? (h : Handle) : Option Handle :=
  h.index.bind fun index => (index.parent? h.node).map index.handle

def attribute? (h : Handle) (key : String) : Option String := h.node.label.attributes.get? key

/-- An attribute in the wide sense: `value` and `$value` stand for the node's value and `$name` for its
name, whatever attributes of these names it has. -/
def property? (h : Handle) (key : String) : Option String :=
  if key = "value" ∨ key = "$value" then h.value?
  else if key = "$name" then some h.name
  else h.attribute? key

def isTerminal (h : Handle) : Bool := h.value?.isSome && h.children.isEmpty

/-- A node as messages show it: its name, with its value behind it if it has one. -/
def describe (h : Handle) : String :=
  match h.value? with
  | some value => h.name ++ "(" ++ Text.quoted value ++ ")"
  | none => h.name

end Handle

/-- Handles on all nodes of a tree in preorder. They look for their parents in the index of the node at
place `top`, or do not know them if there is no such place. -/
def Tree.handles (t : Tree Label) (top : Option Nat) : List Handle :=
  let nodes := t.placed.preorder
  match top.bind (nodes[·]?) with
  | some node =>
    let index := ParentIndex.build node
    nodes.map index.handle
  | none => nodes.map Handle.plain

end TreeQuery
