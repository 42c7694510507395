import TreeQuery.Proofs.Tree.Ancestry

namespace TreeQuery

open TreeQuery.Tree

namespace Tree

/-- The last but one node on the way from `r` down to `n`. -/
def parentIn? (n r : Tree Placed) : Option (Tree Placed) :=
  (wayTo n.place r).bind fun path => path.dropLast.getLast?

def nextSiblingIn? (n r : Tree Placed) : Option (Tree Placed) :=
  (n.parentIn? r).bind fun parent => (parent.children.dropWhile (·.place != n.place)).tail.head?

def previousSiblingIn? (n r : Tree Placed) : Option (Tree Placed) :=
  (n.parentIn? r).bind fun parent => (parent.children.takeWhile (·.place != n.place)).getLast?

end Tree

namespace Axis

/-- The nodes that an axis reaches from `n` in the tree under `r`. -/
def reach (axis : Axis) (n r : Tree Placed) : List (Tree Placed) :=
  match axis with
  | child => n.children
  | descendant => n.preorder.flatMap Tree.children
  | descendantOrSelf => n.preorder.flatMap Tree.children ++ [n]
  | self => [n]
  | parent => (n.parentIn? r).toList
  | ancestor => ((wayTo n.place r).getD []).dropLast
  | ancestorOrSelf => (wayTo n.place r).getD [n]
  | followingSibling => (n.nextSiblingIn? r).toList
  | precedingSibling => (n.previousSiblingIn? r).toList

/-- Whether the axis leads only to nodes on the way to a node or below it. -/
def isLocal : Axis → Bool
  | parent | followingSibling | precedingSibling => false
  | _ => true

end Axis

section

variable {t r n m : Tree Placed}

theorem wayTo_mem {place : Nat} {path : List (Tree Placed)} (h : wayTo place r = some path) :
    ∀ k ∈ path, k ∈ r.preorder := by
  obtain ⟨way, n, rfl, descent, -⟩ := wayTo_sound h
  intro k hk
  rcases List.mem_cons.mp hk with rfl | hk
  · exact k.self_mem_preorder
  · exact descent.subset k hk

theorem parentIn?_mem (h : n.parentIn? r = some m) : m ∈ r.preorder := by
  obtain ⟨path, found, last⟩ := Option.bind_eq_some_iff.mp h
  exact wayTo_mem found m (List.dropLast_subset path (List.mem_of_getLast? last))

theorem parentIn?_of_child (ordered : t.Ordered) (hr : r ∈ t.preorder) (hm : m ∈ r.preorder)
    (child : n ∈ m.children) : n.parentIn? r = some m := by
  obtain ⟨way, descent⟩ := Descent.exists_of_mem hm
  have hn := child_mem (mem_preorder_trans hr hm) child
  have found := (wayTo_eq_some_iff ordered hr hn).mpr ⟨way ++ [n], rfl, descent.down child⟩
  obtain ⟨before, ends⟩ := descent.ends
  rw [parentIn?, found, Option.bind_some, ← List.cons_append, List.dropLast_concat, ends,
    List.getLast?_concat]

/-- No axis leads out of the tree under the root. -/
theorem Axis.reach_mem (axis : Axis) (hn : n ∈ r.preorder) :
    ∀ k ∈ axis.reach n r, k ∈ r.preorder := by
  have below : ∀ k ∈ n.preorder.flatMap Tree.children, k ∈ r.preorder := by
    intro k hk
    obtain ⟨m, hm, child⟩ := List.mem_flatMap.mp hk
    exact mem_preorder_trans hn (child_mem hm child)
  have above : ∀ k ∈ (wayTo n.place r).getD [], k ∈ r.preorder := by
    cases found : wayTo n.place r with
    | none => simp
    | some path => exact wayTo_mem found
  intro k hk
  cases axis with
  | child => exact child_mem hn hk
  | descendant => exact below k hk
  | descendantOrSelf =>
    rcases List.mem_append.mp hk with hk | hk
    · exact below k hk
    · exact List.mem_singleton.mp hk ▸ hn
  | self => exact List.mem_singleton.mp hk ▸ hn
  | parent => exact parentIn?_mem (Option.mem_toList.mp hk)
  | ancestor => exact above k (List.dropLast_subset _ hk)
  | ancestorOrSelf =>
    rw [Axis.reach] at hk
    cases found : wayTo n.place r with
    | none =>
      rw [found] at hk
      exact List.mem_singleton.mp hk ▸ hn
    | some path =>
      rw [found] at hk above
      exact above k hk
  | followingSibling =>
    obtain ⟨parent, hp, next⟩ := Option.bind_eq_some_iff.mp (Option.mem_toList.mp hk)
    have later := List.mem_of_mem_tail (List.mem_of_mem_head? next)
    exact child_mem (parentIn?_mem hp) ((List.dropWhile_suffix _).subset later)
  | precedingSibling =>
    obtain ⟨parent, hp, previous⟩ := Option.bind_eq_some_iff.mp (Option.mem_toList.mp hk)
    have earlier := List.mem_of_getLast? previous
    exact child_mem (parentIn?_mem hp) ((List.takeWhile_prefix _).subset earlier)

section

variable {i : Option ParentIndex}

/-- Handles of one kind find the way from the root, each node of it as a handle of that kind. -/
theorem pathFromRoot_eq (ordered : t.Ordered) (hr : r ∈ t.preorder) (hn : n ∈ r.preorder)
    (sound : Handle.Sound t ⟨n, i⟩) :
    Handle.pathFromRoot ⟨n, i⟩ ⟨r, i⟩ = (wayTo n.place r).map (List.map (Handle.mk · i)) := by
  obtain ⟨way, descent⟩ := Descent.exists_of_mem hn
  have hr' : (Handle.mk r i).node ∈ t.preorder := hr
  obtain ⟨path, found, nodes, index⟩ := Handle.pathFromRoot_of_descent ordered hr' sound descent
  have way := (wayTo_eq_some_iff ordered hr sound.node).mpr ⟨way, rfl, descent⟩
  have same : ∀ k ∈ path, Handle.mk k.node i = k := by
    intro k hk
    obtain rfl : k.index = i := (index k hk).elim id id
    rfl
  rw [found, way, Option.map_some, ← nodes, List.map_map]
  exact congrArg some ((List.map_congr_left same).trans (List.map_id' path)).symm

theorem ancestors_eq (ordered : t.Ordered) (hr : r ∈ t.preorder) (hn : n ∈ r.preorder)
    (sound : Handle.Sound t ⟨n, i⟩) :
    Handle.ancestors ⟨n, i⟩ ⟨r, i⟩ = (Axis.ancestor.reach n r).map (Handle.mk · i) := by
  rw [Handle.ancestors, pathFromRoot_eq ordered hr hn sound, Axis.reach]
  cases wayTo n.place r with
  | none => rfl
  | some path => exact List.map_dropLast.symm

theorem ancestorsOrSelf_eq (ordered : t.Ordered) (hr : r ∈ t.preorder) (hn : n ∈ r.preorder)
    (sound : Handle.Sound t ⟨n, i⟩) :
    Handle.ancestorsOrSelf ⟨n, i⟩ ⟨r, i⟩ = (Axis.ancestorOrSelf.reach n r).map (Handle.mk · i) := by
  rw [Handle.ancestorsOrSelf, pathFromRoot_eq ordered hr hn sound, Axis.reach]
  cases wayTo n.place r with
  | none => rfl
  | some path => rfl

/-- The last but one node of the way down to a handle is the parent that is searched for. -/
theorem pathDownTo_lastButOne (h root : Handle) :
    (Handle.pathDownTo h root).bind Handle.lastButOne? =
      (h.node.parentIn? root.node).map (Handle.mk · root.index) := by
  rw [Handle.pathDownTo_eq, parentIn?, Option.bind_map, Option.map_bind]
  congr 1
  funext path
  simp [Handle.lastButOne?_eq, ← List.map_dropLast]

/-- A parent that is not known is searched for; under the topmost node both give the same. -/
theorem parentUnder_eq (ordered : t.Ordered) (sound : Handle.Sound t ⟨n, i⟩)
    (whole : i = none ∨ r = t) :
    Handle.parentUnder ⟨n, i⟩ ⟨r, i⟩ = (n.parentIn? r).map (Handle.mk · i) := by
  unfold Handle.parentUnder
  cases found : Handle.parent? ⟨n, i⟩ with
  | none => exact pathDownTo_lastButOne _ _
  | some k =>
    obtain ⟨hk, index, child⟩ := sound.parent? found
    obtain rfl : k.index = i := index
    rcases whole with plain | rfl
    · rw [plain] at found
      cases found
    · rw [parentIn?_of_child ordered r.self_mem_preorder hk.node child]
      rfl

theorem nextSibling?_eq (parent : Handle.parentUnder ⟨n, i⟩ ⟨r, i⟩ =
    (n.parentIn? r).map (Handle.mk · i)) :
    Handle.nextSibling? ⟨n, i⟩ ⟨r, i⟩ = (n.nextSiblingIn? r).map (Handle.mk · i) := by
  rw [Handle.nextSibling?, parent, nextSiblingIn?]
  cases n.parentIn? r with
  | none => rfl
  | some m =>
    simp only [Option.map_some, Option.bind_some, Handle.children_eq, List.dropWhile_map,
      ← List.map_tail, List.head?_map]
    rfl

theorem previousSibling?_eq (parent : Handle.parentUnder ⟨n, i⟩ ⟨r, i⟩ =
    (n.parentIn? r).map (Handle.mk · i)) :
    Handle.previousSibling? ⟨n, i⟩ ⟨r, i⟩ = (n.previousSiblingIn? r).map (Handle.mk · i) := by
  rw [Handle.previousSibling?, parent, previousSiblingIn?]
  cases n.parentIn? r with
  | none => rfl
  | some m =>
    simp only [Option.map_some, Option.bind_some, Handle.children_eq, List.takeWhile_map,
      List.getLast?_map]
    rfl

/-- Following an axis from a handle is following it from the node, for all axes if the handle has no
index or the root is the topmost node, and for the local ones from any root. -/
theorem Axis.follow_eq (axis : Axis) (ordered : t.Ordered) (hr : r ∈ t.preorder)
    (hn : n ∈ r.preorder) (sound : Handle.Sound t ⟨n, i⟩)
    (scope : i = none ∨ r = t ∨ axis.isLocal) :
    axis.follow ⟨n, i⟩ ⟨r, i⟩ = (axis.reach n r).map (Handle.mk · i) := by
  have parent : axis.isLocal = false →
      Handle.parentUnder ⟨n, i⟩ ⟨r, i⟩ = (n.parentIn? r).map (Handle.mk · i) := by
    intro other
    apply parentUnder_eq ordered sound
    rcases scope with plain | whole | isLocal
    · exact .inl plain
    · exact .inr whole
    · rw [other] at isLocal
      cases isLocal
  cases axis with
  | child => rfl
  | descendant => exact Handle.descendants_eq _
  | descendantOrSelf => rw [Axis.follow, Handle.descendants_eq, Axis.reach, List.map_append]; rfl
  | self => rfl
  | parent => rw [Axis.follow, parent rfl, Axis.reach, Option.toList_map]
  | ancestor => exact ancestors_eq ordered hr hn sound
  | ancestorOrSelf => exact ancestorsOrSelf_eq ordered hr hn sound
  | followingSibling =>
    rw [Axis.follow, nextSibling?_eq (parent rfl), Axis.reach, Option.toList_map]
  | precedingSibling =>
    rw [Axis.follow, previousSibling?_eq (parent rfl), Axis.reach, Option.toList_map]

end

end

end TreeQuery
