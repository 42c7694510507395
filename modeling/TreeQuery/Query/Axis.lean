import TreeQuery.Path.Axis
import TreeQuery.Tree.Navigation

namespace TreeQuery

namespace Handle

/-- Gathers the children of the pending nodes and of all below them. -/
def gatherBelow (found : Array Handle) : List Handle → Array Handle
  | [] => found
  | h :: pending => gatherBelow (found ++ h.children) (h.children ++ pending)
termination_by pending => Tree.sizes (pending.map (·.node))
decreasing_by simp [Tree.sizes, Tree.size_eq, Handle.children, Function.comp_def]

/-- All nodes below `h`: its children first, then what is below each of them in turn. -/
def descendants (h : Handle) : List Handle := (gatherBelow #[] [h]).toList

/-- The nodes from `root` down to the parent of `h`. -/
def ancestors (h root : Handle) : List Handle :=
  match pathFromRoot h root with
  | some path => path.dropLast
  | none => []

/-- The nodes from `root` down to `h`, or `h` alone if it is not under `root`. -/
def ancestorsOrSelf (h root : Handle) : List Handle := (pathFromRoot h root).getD [h]

/-- The nearest sibling after `h`. -/
def nextSibling? (h root : Handle) : Option Handle :=
  (h.parentUnder root).bind fun parent => (parent.children.dropWhile (· != h)).tail.head?

/-- The nearest sibling before `h`. -/
def previousSibling? (h root : Handle) : Option Handle :=
  (h.parentUnder root).bind fun parent => (parent.children.takeWhile (· != h)).getLast?

end Handle

/-- The nodes that an axis reaches from `h`, in the order of the axis. -/
def Axis.follow (axis : Axis) (h root : Handle) : List Handle :=
  match axis with
  | child => h.children
  | descendant => h.descendants
  | descendantOrSelf => h.descendants ++ [h]
  | self => [h]
  | parent => (h.parentUnder root).toList
  | ancestor => h.ancestors root
  | ancestorOrSelf => h.ancestorsOrSelf root
  | followingSibling => (h.nextSibling? root).toList
  | precedingSibling => (h.previousSibling? root).toList

end TreeQuery
