import TreeQuery.Proofs.Query.Relations

namespace TreeQuery

open TreeQuery.Tree

section

variable {t : Tree Placed} {root h : Handle}

/-- From the topmost node every handle finds its parent, a handle on the same tree again. -/
theorem Handle.Within.parentUnder (ordered : t.Ordered) (hr : root.Within t) (top : root.node = t)
    (hh : h.Within t) :
    (h.parentUnder root).map Handle.node = h.node.parentIn? t ∧
      ∀ parent, h.parentUnder root = some parent → parent.Within t := by
  unfold Handle.parentUnder
  cases found : h.parent? with
  | some parent =>
    obtain ⟨hp, -, child⟩ := hh.parent? ordered found
    refine ⟨(parentIn?_of_child ordered t.self_mem_preorder hp.node child).symm, fun k hk => ?_⟩
    obtain rfl := Option.some.inj hk
    exact hp
  | none =>
    dsimp only
    rw [pathDownTo_lastButOne, top]
    refine ⟨by simp [Function.comp_def], fun parent hp => ?_⟩
    obtain ⟨m, hm, rfl⟩ := Option.map_eq_some_iff.mp hp
    exact ⟨parentIn?_mem hm, hr.index⟩

theorem Handle.map_node_pathFromRoot (ordered : t.Ordered) (top : root.node = t) (hh : h.Within t) :
    (Handle.pathFromRoot h root).map (List.map Handle.node) = wayTo h.place t := by
  subst top
  obtain ⟨way, descent, same⟩ := exists_wayTo ordered hh.node
  obtain ⟨path, found, nodes, -⟩ :=
    Handle.pathFromRoot_of_descent ordered root.node.self_mem_preorder (hh.sound ordered) descent
  rw [found, Option.map_some, nodes]
  exact same.symm

/-- From the topmost node all handles follow an axis to the same nodes. -/
theorem Axis.map_node_follow (axis : Axis) (ordered : t.Ordered) (hr : root.Within t)
    (top : root.node = t) (hh : h.Within t) :
    (axis.follow h root).map Handle.node = axis.reach h.node t := by
  have parent := (Handle.Within.parentUnder ordered hr top hh).1
  have path := Handle.map_node_pathFromRoot ordered top hh
  have ids : ∀ (ns : List (Tree Placed)) (i : Option ParentIndex),
      (ns.map (Handle.mk · i)).map Handle.node = ns := by
    simp [Function.comp_def]
  cases axis with
  | child => exact ids _ _
  | descendant => rw [follow, Handle.descendants_eq, ids]; rfl
  | descendantOrSelf => rw [follow, List.map_append, Handle.descendants_eq, ids]; rfl
  | self => rfl
  | parent => rw [follow, ← Option.toList_map, parent]; rfl
  | ancestor =>
    change _ = ((wayTo h.place t).getD []).dropLast
    rw [follow, Handle.ancestors, ← path]
    cases Handle.pathFromRoot h root <;> simp
  | ancestorOrSelf =>
    change _ = (wayTo h.place t).getD [h.node]
    rw [follow, Handle.ancestorsOrSelf, ← path]
    cases Handle.pathFromRoot h root <;> rfl
  | followingSibling =>
    change _ = (h.node.nextSiblingIn? t).toList
    rw [follow, ← Option.toList_map, Handle.nextSibling?, nextSiblingIn?, ← parent]
    cases h.parentUnder root with
    | none => rfl
    | some k =>
      simp only [Option.bind_some, Option.map_some, Handle.children_eq, List.dropWhile_map,
        ← List.map_tail, List.head?_map, Option.map_map]
      exact congrArg Option.toList Option.map_id'
  | precedingSibling =>
    change _ = (h.node.previousSiblingIn? t).toList
    rw [follow, ← Option.toList_map, Handle.previousSibling?, previousSiblingIn?, ← parent]
    cases h.parentUnder root with
    | none => rfl
    | some k =>
      simp only [Option.bind_some, Option.map_some, Handle.children_eq, List.takeWhile_map,
        List.getLast?_map, Option.map_map]
      exact congrArg Option.toList Option.map_id'

theorem Axis.contains_follow (axis : Axis) (ordered : t.Ordered) (hr : root.Within t)
    (top : root.node = t) (hh : h.Within t) {k : Handle} (hk : k.Within t) :
    (axis.follow h root).contains k ↔ k.node ∈ axis.reach h.node t := by
  rw [← axis.map_node_follow ordered hr top hh, List.contains_iff_exists_mem_beq, List.mem_map]
  have inside : ∀ l ∈ axis.follow h root, l.node ∈ t.preorder := by
    intro l hl
    have reached := List.mem_map_of_mem (f := Handle.node) hl
    rw [axis.map_node_follow ordered hr top hh] at reached
    exact axis.reach_mem hh.node l.node reached
  refine exists_congr fun l => and_congr_right fun hl => ?_
  rw [Handle.beq_iff]
  exact ⟨fun same => (ordered.eq_of_place hk.node (inside l hl) same).symm,
    fun same => congrArg Tree.place same.symm⟩

end

/-- Going from parent to parent from a handle up to the root leads over these handles. -/
inductive Handle.Ascent (root : Handle) : Handle → List Handle → Prop where
  | arrived {h : Handle} (here : (h == root) = true) : Ascent root h []
  | up {h parent : Handle} {above : List Handle} (below : (h == root) = false)
    (next : Axis.parent.follow h root = [parent]) (rest : Ascent root parent above) :
    Ascent root h (parent :: above)

/-- The ancestors are the handles on the way up, the root first. -/
theorem Handle.exists_ascent {t : Tree Placed} {root : Handle} (ordered : t.Ordered)
    (hr : root.Within t) (top : root.node = t) {n : Tree Placed} {way : List (Tree Placed)}
    (descent : Descent t way n) : ∀ h : Handle, h.Within t → h.node = n →
    ∃ above, Ascent root h above ∧ (t :: way).dropLast = (above.map node).reverse := by
  induction descent with
  | here =>
    intro h hh same
    refine ⟨[], .arrived (beq_iff.mpr ?_), rfl⟩
    exact congrArg Tree.place (same.trans top.symm)
  | @down way m n upper child ih =>
    rintro h hh rfl
    have hm := upper.mem_preorder
    obtain ⟨found, within⟩ := Within.parentUnder ordered hr top hh
    rw [parentIn?_of_child ordered t.self_mem_preorder hm child] at found
    obtain ⟨parent, next, same⟩ := Option.map_eq_some_iff.mp found
    obtain ⟨above, rest, path⟩ := ih parent (within parent next) same
    have below : (h == root) = false := by
      rw [← Bool.not_eq_true, beq_iff]
      intro here
      exact ordered.not_child_top hm child (here.trans (congrArg Tree.place top))
    refine ⟨parent :: above, .up below (by rw [Axis.follow, next]; rfl) rest, ?_⟩
    obtain ⟨before, ends⟩ := upper.ends
    rw [← List.cons_append, List.dropLast_concat, List.map_cons, List.reverse_cons, ← path, same,
      ends, List.dropLast_concat]

/-- In the tree under `root`, whichever way handles know their parents: no axis leads to a node twice,
an axis leads from one node to another just when the inverse axis leads back, and the ancestors of a
node are what the parent axis leads over on the way up to the root. -/
theorem axes_inverse (t : Tree Label) (root n m : Handle) (hr : root.Within t.placed)
    (top : root.node = t.placed) (hn : n.Within t.placed) (hm : m.Within t.placed) :
    (∀ axis : Axis, ((axis.follow n root).map Handle.place).Nodup) ∧
    ((Axis.child.follow n root).contains m ↔ (Axis.parent.follow m root).contains n) ∧
    ((Axis.descendant.follow n root).contains m ↔ (Axis.ancestor.follow m root).contains n) ∧
    ((Axis.descendantOrSelf.follow n root).contains m ↔
      (Axis.ancestorOrSelf.follow m root).contains n) ∧
    ((Axis.followingSibling.follow n root).contains m ↔
      (Axis.precedingSibling.follow m root).contains n) ∧
    ∃ above, Handle.Ascent root n above ∧
      (Axis.ancestor.follow n root).map Handle.node = (above.map Handle.node).reverse := by
  have ordered := ordered_placed t
  have forward (axis : Axis) := axis.contains_follow ordered hr top hn hm
  have back (axis : Axis) := axis.contains_follow ordered hr top hm hn
  refine ⟨fun axis => ?_, ?_, ?_, ?_, ?_, ?_⟩
  · have nodes := congrArg (List.map Tree.place) (axis.map_node_follow ordered hr top hn)
    rw [List.map_map] at nodes
    exact nodes ▸ axis.nodup_reach ordered hn.node
  · rw [forward, back, Axis.mem_parent_iff ordered hm.node]
    exact (and_iff_right hn.node).symm
  · rw [forward, back, Axis.mem_ancestor_iff ordered hm.node]
    exact (and_iff_right hn.node).symm
  · rw [forward, back, Axis.mem_ancestorOrSelf_iff ordered hm.node]
    exact (and_iff_right hn.node).symm
  · rw [forward, back, Axis.mem_precedingSibling_iff ordered hn.node hm.node]
  · obtain ⟨way, descent, found⟩ := exists_wayTo ordered hn.node
    obtain ⟨above, ascent, path⟩ := Handle.exists_ascent ordered hr top descent n hn rfl
    refine ⟨above, ascent, ?_⟩
    rw [Axis.map_node_follow _ ordered hr top hn, ← path, Axis.reach, found]
    rfl

theorem axes_inverse_mixed_handles :
    let t : Tree Label := ⟨{ name := "a" }, [.named "b", .named "b"]⟩
    let first : Tree Placed := (Tree.named "b").placedFrom 1
    let second : Tree Placed := (Tree.named "b").placedFrom 2
    let index := ParentIndex.build t.placed
    first ∈ t.placed.preorder ∧ second ∈ t.placed.preorder ∧
    ((Axis.followingSibling.follow (.plain first) (.plain t.placed)).contains (index.handle second) ↔
      (Axis.precedingSibling.follow (index.handle second) (.plain t.placed)).contains
        (.plain first)) := by
  intro t first second index
  have hfirst : first ∈ t.placed.preorder := by decide
  have hsecond : second ∈ t.placed.preorder := by decide
  have whole := t.placed.self_mem_preorder
  obtain ⟨-, -, -, -, siblings, -⟩ := axes_inverse t (.plain t.placed) (.plain first)
    (index.handle second) (Handle.within_plain whole) rfl (Handle.within_plain hfirst)
    (Handle.within_build hsecond whole)
  exact ⟨hfirst, hsecond, siblings⟩

end TreeQuery
