import TreeQuery.Proofs.Query.Answer
import TreeQuery.Proofs.Query.Relations

namespace TreeQuery

open TreeQuery.Tree

section

variable {t : Tree Placed} {h k root : Handle}

namespace Handle

theorem sound_of_mem_handles {u : Tree Label} {top : Option Nat} (hh : h ∈ u.handles top) :
    h.Sound u.placed := by
  have ordered := ordered_placed u
  unfold Tree.handles at hh
  dsimp only at hh
  split at hh
  · rename_i node found
    obtain ⟨n, hn, rfl⟩ := List.mem_map.mp hh
    obtain ⟨place, -, found⟩ := Option.bind_eq_some_iff.mp found
    exact (within_build hn (List.mem_of_getElem? found)).sound ordered
  · obtain ⟨n, hn, rfl⟩ := List.mem_map.mp hh
    exact (within_plain hn).sound ordered

/-- A handle on another node that looks for parents in the same index. -/
theorem Sound.at (hh : h.Sound t) {n : Tree Placed} (hn : n ∈ t.preorder) :
    (Handle.mk n h.index).Sound t := ⟨hn, hh.index⟩

theorem Sound.children (hh : h.Sound t) : ∀ k ∈ h.children, k.Sound t := by
  intro k hk
  obtain ⟨n, child, rfl⟩ := List.mem_map.mp hk
  exact hh.at (child_mem hh.node child)

theorem Sound.descendants (hh : h.Sound t) : ∀ k ∈ h.descendants, k.Sound t := by
  intro k hk
  rw [descendants_eq] at hk
  obtain ⟨n, below, rfl⟩ := List.mem_map.mp hk
  obtain ⟨m, hm, child⟩ := List.mem_flatMap.mp below
  exact hh.at (mem_preorder_trans hh.node (child_mem hm child))

theorem Sound.parentUnder (hh : h.Sound t) (hr : root.Sound t)
    (found : h.parentUnder root = some k) : k.Sound t := by
  unfold Handle.parentUnder at found
  split at found
  · rename_i parent known
    exact Option.some.inj found ▸ (hh.parent? known).1
  · rw [pathDownTo_lastButOne] at found
    obtain ⟨m, parent, rfl⟩ := Option.map_eq_some_iff.mp found
    exact hr.at (mem_preorder_trans hr.node (parentIn?_mem parent))

end Handle

/-- From nodes of the tree every axis leads to nodes of the tree. -/
theorem Axis.follow_sound (axis : Axis) (ordered : t.Ordered) (hr : root.Sound t)
    (hh : h.Sound t) : ∀ k ∈ axis.follow h root, k.Sound t := by
  intro k hk
  cases axis with
  | child => exact hh.children k hk
  | descendant => exact hh.descendants k hk
  | descendantOrSelf =>
    rcases List.mem_append.mp hk with below | here
    · exact hh.descendants k below
    · exact List.mem_singleton.mp here ▸ hh
  | self => exact List.mem_singleton.mp hk ▸ hh
  | parent => exact hh.parentUnder hr (Option.mem_toList.mp hk)
  | ancestor =>
    rw [follow, Handle.ancestors] at hk
    split at hk
    · rename_i path found
      exact (Handle.pathFromRoot_sound ordered hr hh found).1 k (List.dropLast_subset path hk)
    · cases hk
  | ancestorOrSelf =>
    rw [follow, Handle.ancestorsOrSelf] at hk
    cases found : Handle.pathFromRoot h root with
    | none =>
      rw [found] at hk
      exact List.mem_singleton.mp hk ▸ hh
    | some path =>
      rw [found] at hk
      exact (Handle.pathFromRoot_sound ordered hr hh found).1 k hk
  | followingSibling =>
    obtain ⟨parent, found, next⟩ := Option.bind_eq_some_iff.mp (Option.mem_toList.mp hk)
    have later := List.mem_of_mem_tail (List.mem_of_mem_head? next)
    exact (hh.parentUnder hr found).children k ((List.dropWhile_suffix _).subset later)
  | precedingSibling =>
    obtain ⟨parent, found, previous⟩ := Option.bind_eq_some_iff.mp (Option.mem_toList.mp hk)
    have earlier := List.mem_of_getLast? previous
    exact (hh.parentUnder hr found).children k ((List.takeWhile_prefix _).subset earlier)

/-- No axis leads to a node twice. -/
theorem Axis.nodup_follow (axis : Axis) (ordered : t.Ordered) (hr : root.Sound t)
    (hh : h.Sound t) : ((axis.follow h root).map Handle.place).Nodup := by
  have reached (a : Axis) (same : a.follow h root = (a.reach h.node t).map (Handle.mk · h.index)) :
      ((a.follow h root).map Handle.place).Nodup := by
    rw [same, List.map_map]
    exact a.nodup_reach ordered hh.node
  have single (o : Option Handle) : (o.toList.map Handle.place).Nodup := by
    cases o <;> simp
  cases axis with
  | child => exact reached .child rfl
  | descendant => exact reached .descendant (Handle.descendants_eq h)
  | descendantOrSelf =>
    refine reached .descendantOrSelf ?_
    rw [follow, Handle.descendants_eq, reach, List.map_append]
    rfl
  | self => exact reached .self rfl
  | parent => exact single _
  | ancestor =>
    rw [follow, Handle.ancestors]
    split
    · rename_i path found
      have nodup := (Handle.pathFromRoot_sound ordered hr hh found).2
      exact nodup.sublist ((List.dropLast_sublist path).map Handle.place)
    · exact List.nodup_nil
  | ancestorOrSelf =>
    rw [follow, Handle.ancestorsOrSelf]
    cases found : Handle.pathFromRoot h root with
    | none => exact List.nodup_singleton _
    | some path => exact (Handle.pathFromRoot_sound ordered hr hh found).2
  | followingSibling => exact single _
  | precedingSibling => exact single _

variable {axis : Axis} {test : NodeTest}

theorem candidatesOf_sound (ordered : t.Ordered) (hr : root.Sound t) (hh : h.Sound t) :
    ∀ k ∈ candidatesOf axis test h root, k.Sound t :=
  fun k hk => axis.follow_sound ordered hr hh k (List.mem_filter.mp hk).1

theorem nodup_candidatesOf (ordered : t.Ordered) (hr : root.Sound t) (hh : h.Sound t) :
    ((candidatesOf axis test h root).map Handle.place).Nodup :=
  (axis.nodup_follow ordered hr hh).sublist (List.filter_sublist.map Handle.place)

/-- A candidate is among the candidates of its step once. -/
theorem count_candidatesOf (ordered : t.Ordered) (hr : root.Sound t) (hh : h.Sound t)
    (hk : k ∈ candidatesOf axis test h root) : (candidatesOf axis test h root).count k = 1 := by
  have count : (candidatesOf axis test h root).count k =
      ((candidatesOf axis test h root).map Handle.place).count k.place := by
    rw [List.count, List.count, List.countP_map]
    rfl
  rw [count]
  exact List.count_eq_one_of_mem (nodup_candidatesOf ordered hr hh) (List.mem_map_of_mem hk)

end

end TreeQuery
