import TreeQuery.Proofs.Query.Reach

namespace TreeQuery

open TreeQuery.Tree

namespace Tree

section

variable {t r m n : Tree Placed}

theorem Ordered.nodup_below (h : n.Ordered) : ((n.preorder.flatMap children).map place).Nodup := by
  rw [((below_perm n).map place).nodup_iff]
  have nodup := h.nodup
  rw [preorder_eq, List.map_cons] at nodup
  exact nodup.of_cons

theorem Ordered.nodup_children (h : n.Ordered) : (n.children.map place).Nodup := by
  have below := h.nodup_below
  rw [preorder_eq, List.flatMap_cons, List.map_append] at below
  exact below.of_append_left

theorem parentIn?_eq_some_iff (ordered : t.Ordered) (hr : r ∈ t.preorder) (hn : n ∈ t.preorder) :
    n.parentIn? r = some m ↔ m ∈ r.preorder ∧ n ∈ m.children := by
  constructor
  · intro h
    obtain ⟨path, found, last⟩ := Option.bind_eq_some_iff.mp h
    obtain ⟨way, rfl, descent⟩ := (wayTo_eq_some_iff ordered hr hn).mp found
    cases descent with
    | here => cases last
    | @down way k n above child =>
      obtain ⟨before, ends⟩ := above.ends
      rw [← List.cons_append, List.dropLast_concat, ends, List.getLast?_concat] at last
      obtain rfl := Option.some.inj last
      exact ⟨above.mem_preorder, child⟩
  · exact fun h => parentIn?_of_child ordered hr h.1 h.2

section

variable {cs before after : List (Tree Placed)}

theorem takeWhile_place (nodup : ((before ++ n :: after).map place).Nodup) :
    (before ++ n :: after).takeWhile (·.place != n.place) = before ∧
      (before ++ n :: after).dropWhile (·.place != n.place) = n :: after := by
  have other : ∀ k ∈ before, (k.place != n.place) = true := by
    intro k hk
    rw [List.map_append, List.nodup_append] at nodup
    have := nodup.2.2 k.place (List.mem_map_of_mem hk) n.place (by simp)
    simpa using this
  rw [List.takeWhile_append_of_pos other, List.dropWhile_append_of_pos other]
  simp

theorem next_iff (nodup : (cs.map place).Nodup) :
    n ∈ cs ∧ (cs.dropWhile (·.place != n.place)).tail.head? = some m ↔
      ∃ before after, cs = before ++ n :: m :: after := by
  constructor
  · intro h
    obtain ⟨hn, next⟩ := h
    obtain ⟨before, after, rfl⟩ := List.append_of_mem hn
    rw [(takeWhile_place nodup).2, List.tail_cons] at next
    obtain ⟨rest, rfl⟩ := List.head?_eq_some_iff.mp next
    exact ⟨before, rest, rfl⟩
  · intro h
    obtain ⟨before, after, rfl⟩ := h
    rw [(takeWhile_place nodup).2]
    exact ⟨by simp, rfl⟩

theorem previous_iff (nodup : (cs.map place).Nodup) :
    m ∈ cs ∧ (cs.takeWhile (·.place != m.place)).getLast? = some n ↔
      ∃ before after, cs = before ++ n :: m :: after := by
  constructor
  · intro h
    obtain ⟨hm, previous⟩ := h
    obtain ⟨before, after, rfl⟩ := List.append_of_mem hm
    rw [(takeWhile_place nodup).1] at previous
    obtain ⟨front, rfl⟩ := List.getLast?_eq_some_iff.mp previous
    exact ⟨front, after, by simp⟩
  · intro h
    obtain ⟨before, after, rfl⟩ := h
    rw [List.append_cons] at nodup ⊢
    rw [(takeWhile_place nodup).1, List.getLast?_concat]
    exact ⟨by simp, rfl⟩

end

/-- One node comes right before the other among the children of a node under `r`. -/
def Adjacent (r n m : Tree Placed) : Prop :=
  ∃ parent ∈ r.preorder, ∃ before after, parent.children = before ++ n :: m :: after

/-- What is looked up at a node's parent is looked up at the node that has it as a child. -/
theorem parentIn?_bind_eq_some_iff {β : Type} (ordered : t.Ordered) (hr : r ∈ t.preorder)
    (hn : n ∈ t.preorder) {f : Tree Placed → Option β} {b : β} :
    (n.parentIn? r).bind f = some b ↔
      ∃ parent ∈ r.preorder, n ∈ parent.children ∧ f parent = some b := by
  rw [Option.bind_eq_some_iff]
  refine exists_congr fun parent => ?_
  rw [parentIn?_eq_some_iff ordered hr hn, and_assoc]

theorem nextSiblingIn?_eq_some_iff (ordered : t.Ordered) (hr : r ∈ t.preorder)
    (hn : n ∈ t.preorder) : n.nextSiblingIn? r = some m ↔ Adjacent r n m := by
  rw [nextSiblingIn?, parentIn?_bind_eq_some_iff ordered hr hn]
  refine exists_congr fun parent => and_congr_right fun hp => ?_
  exact next_iff (ordered.part (mem_preorder_trans hr hp)).nodup_children

theorem previousSiblingIn?_eq_some_iff (ordered : t.Ordered) (hr : r ∈ t.preorder)
    (hm : m ∈ t.preorder) : m.previousSiblingIn? r = some n ↔ Adjacent r n m := by
  rw [previousSiblingIn?, parentIn?_bind_eq_some_iff ordered hr hm]
  refine exists_congr fun parent => and_congr_right fun hp => ?_
  exact previous_iff (ordered.part (mem_preorder_trans hr hp)).nodup_children

end

end Tree

section

variable {t m n : Tree Placed}

theorem Axis.nodup_reach (axis : Axis) (ordered : t.Ordered) (hn : n ∈ t.preorder) :
    ((axis.reach n t).map Tree.place).Nodup := by
  obtain ⟨way, descent, found⟩ := exists_wayTo ordered hn
  have path : ((t :: way).map Tree.place).Nodup :=
    (descent.ascending ordered).imp Nat.ne_of_lt
  have single : ∀ o : Option (Tree Placed), (o.toList.map Tree.place).Nodup := by
    intro o
    cases o <;> simp
  cases axis with
  | child => exact (ordered.part hn).nodup_children
  | descendant => exact (ordered.part hn).nodup_below
  | descendantOrSelf =>
    rw [reach, List.map_append, List.nodup_append]
    refine ⟨(ordered.part hn).nodup_below, by simp, ?_⟩
    intro a ha b hb same
    obtain ⟨k, hk, rfl⟩ := List.mem_map.mp ha
    obtain rfl := List.mem_singleton.mp hb
    have below := (ordered.part hn).mem_below_iff.mp hk
    exact below.2 ((ordered.part hn).eq_of_place below.1 n.self_mem_preorder same)
  | self => simp [reach]
  | parent => exact single _
  | ancestor =>
    rw [reach, found]
    exact path.sublist ((List.dropLast_sublist _).map Tree.place)
  | ancestorOrSelf =>
    rw [reach, found]
    exact path
  | followingSibling => exact single _
  | precedingSibling => exact single _

theorem Axis.mem_parent_iff (ordered : t.Ordered) (hm : m ∈ t.preorder) :
    n ∈ Axis.parent.reach m t ↔ n ∈ t.preorder ∧ m ∈ Axis.child.reach n t := by
  change n ∈ (m.parentIn? t).toList ↔ _
  rw [Option.mem_toList]
  exact parentIn?_eq_some_iff ordered t.self_mem_preorder hm

theorem Axis.mem_descendantOrSelf_iff (ordered : n.Ordered) :
    m ∈ Axis.descendantOrSelf.reach n t ↔ m ∈ n.preorder := by
  rw [reach, List.mem_append, ordered.mem_below_iff, List.mem_singleton]
  by_cases same : m = n <;> simp [same, n.self_mem_preorder]

theorem Axis.mem_ancestorOrSelf_iff (ordered : t.Ordered) (hm : m ∈ t.preorder) :
    n ∈ Axis.ancestorOrSelf.reach m t ↔
      n ∈ t.preorder ∧ m ∈ Axis.descendantOrSelf.reach n t := by
  obtain ⟨way, descent, found⟩ := exists_wayTo ordered hm
  have path : Axis.ancestorOrSelf.reach m t = t :: way := by rw [reach, found, Option.getD_some]
  rw [path, descent.mem_iff ordered]
  exact and_congr_right fun hn => (mem_descendantOrSelf_iff (ordered.part hn)).symm

theorem Axis.reach_ancestorOrSelf (ordered : t.Ordered) (hm : m ∈ t.preorder) :
    Axis.ancestorOrSelf.reach m t = Axis.ancestor.reach m t ++ [m] := by
  obtain ⟨way, descent, found⟩ := exists_wayTo ordered hm
  obtain ⟨before, ends⟩ := descent.ends
  rw [reach, reach, found, Option.getD_some, Option.getD_some, ends, List.dropLast_concat]

theorem Axis.mem_ancestor_iff (ordered : t.Ordered) (hm : m ∈ t.preorder) :
    n ∈ Axis.ancestor.reach m t ↔ n ∈ t.preorder ∧ m ∈ Axis.descendant.reach n t := by
  have nodup := (ancestorOrSelf.nodup_reach ordered hm).of_map
  have path := mem_ancestorOrSelf_iff (n := n) ordered hm
  rw [reach_ancestorOrSelf ordered hm] at nodup path
  have other : n ∈ ancestor.reach m t → m ≠ n := by
    rintro hn rfl
    exact (List.nodup_append.mp nodup).2.2 m hn m (by simp) rfl
  constructor
  · intro hn
    obtain ⟨ht, below⟩ := path.mp (List.mem_append_left _ hn)
    rw [mem_descendantOrSelf_iff (ordered.part ht)] at below
    exact ⟨ht, (ordered.part ht).mem_below_iff.mpr ⟨below, other hn⟩⟩
  · intro hn
    obtain ⟨ht, below⟩ := hn
    obtain ⟨below, differ⟩ := (ordered.part ht).mem_below_iff.mp below
    have onPath := path.mpr ⟨ht, (mem_descendantOrSelf_iff (ordered.part ht)).mpr below⟩
    rcases List.mem_append.mp onPath with hn | hn
    · exact hn
    · exact absurd (List.mem_singleton.mp hn).symm differ

theorem Axis.mem_precedingSibling_iff (ordered : t.Ordered) (hn : n ∈ t.preorder)
    (hm : m ∈ t.preorder) :
    n ∈ Axis.precedingSibling.reach m t ↔ m ∈ Axis.followingSibling.reach n t := by
  rw [reach, reach, Option.mem_toList, Option.mem_toList,
    nextSiblingIn?_eq_some_iff ordered t.self_mem_preorder hn,
    previousSiblingIn?_eq_some_iff ordered t.self_mem_preorder hm]

end

end TreeQuery
