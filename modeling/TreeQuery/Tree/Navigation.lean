import TreeQuery.Tree.Handle

namespace TreeQuery.Handle

/-- The path cut back to this depth and then led on to `h`. -/
def leadOn (path : Array Handle) (depth : Nat) (h : Handle) : Array Handle :=
  (path.shrink depth).push h

@[simp] theorem toList_leadOn (path : Array Handle) (depth : Nat) (h : Handle) :
    (leadOn path depth h).toList = path.toList.take depth ++ [h] := by
  simp [leadOn]

/-- Searches the pending nodes in order, each paired with its depth below the start. The path leads down
to the node that was searched last. -/
def searchAll (target : Handle) (path : Array Handle) : List (Handle × Nat) → Option (Array Handle)
  | [] => none
  | (h, depth) :: pending =>
    if h == target then some (leadOn path depth h)
    else
      searchAll target (leadOn path depth h)
        (h.children.map (fun child => (child, depth + 1)) ++ pending)
termination_by pending => Tree.sizes (pending.map (·.1.node))
decreasing_by
  simp [Tree.sizes, Tree.size_eq, Handle.children, Function.comp_def]

/-- The nodes from `start` down to `target`, both included; `none` if `target` is not there. -/
def pathDownTo (target start : Handle) : Option (List Handle) :=
  (searchAll target #[] [(start, 0)]).map Array.toList

/-- The last but one of a list. -/
def lastButOne? : List Handle → Option Handle
  | [] | [_] => none
  | [h, _] => some h
  | _ :: rest => lastButOne? rest

/-- The parent by the handle's own index, or else by searching down from `root`. -/
def parentUnder (h root : Handle) : Option Handle :=
  match h.parent? with
  | some parent => some parent
  | none => (pathDownTo h root).bind lastButOne?

/-- Climbs from `h` by its index until `root` is reached or no parent is known. Gives the highest node
reached and, top down, the nodes passed before it. Each parent comes earlier in preorder, so
the place of the first node bounds the steps. -/
def climb (root : Handle) : Nat → Handle → List Handle → Handle × List Handle
  | 0, h, passed => (h, passed)
  | steps + 1, h, passed =>
    if h == root then (h, passed)
    else
      match h.parent? with
      | none => (h, passed)
      | some parent => climb root steps parent (h :: passed)

/-- The nodes from `root` down to `h`, both included; `none` if `h` is not under `root`. The index of
`h` is used as far as it leads, and the rest of the way is searched from `root`. -/
def pathFromRoot (h root : Handle) : Option (List Handle) :=
  match climb root h.place h [] with
  | (top, passed) =>
    if top == root then some (top :: passed)
    else (pathDownTo top root).map (· ++ passed)

end TreeQuery.Handle
