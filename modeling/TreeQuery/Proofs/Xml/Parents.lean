import TreeQuery.Proofs.Query.Reach
import TreeQuery.Proofs.Xml.View

namespace TreeQuery

open TreeQuery.Tree

namespace Xml

theorem Node.mem_links_iff {n : Node} {place : Nat} {t : Tree Placed} :
    (place, t) ∈ n.links ↔ ∃ parent ∈ n.preorder, ∃ child ∈ parent.children,
      Node.place child = place ∧ Node.shown parent = t := by
  rw [links, List.mem_flatMap]
  refine exists_congr fun parent => and_congr_right fun _ => ?_
  rw [List.mem_map]
  exact exists_congr fun child => and_congr_right fun _ => Prod.mk.injEq .. ▸ .rfl

namespace Document

variable (d : Document) {k p : Tree Placed}

theorem map_fst_links :
    d.node.links.map Prod.fst = (d.node.preorder.flatMap Tree.children).map Node.place := by
  rw [Node.links, List.map_flatMap, List.map_flatMap]
  apply List.flatMap_congr
  intro parent _
  rw [List.map_map]
  rfl

/-- Every node but the whole document is linked once. -/
theorem nodup_links : (d.node.place :: d.node.links.map Prod.fst).Nodup := by
  have nodup := d.nodup_place
  rw [preorder_eq] at nodup
  rw [map_fst_links, (((below_perm d.node).map Node.place).cons _).nodup_iff]
  exact nodup

theorem parent?_index : d.index.parent? k = some p ↔ (k.place, p) ∈ d.node.links := by
  have distinct : d.node.links.Pairwise fun a b => ¬ compare a.1 b.1 = .eq :=
    (List.pairwise_map.mp d.nodup_links.of_cons).imp fun other same =>
      other (Std.compare_eq_iff_eq.mp same)
  have found {t : Tree Placed} (h : (k.place, t) ∈ d.node.links) : d.index.parent? k = some t :=
    Std.TreeMap.getElem?_ofList_of_mem Std.compare_self distinct h
  refine ⟨fun h => ?_, found⟩
  by_cases known : (d.node.links.map Prod.fst).contains k.place
  · obtain ⟨⟨place, t⟩, mem, rfl⟩ := List.mem_map.mp (List.contains_iff_mem.mp known)
    obtain rfl := Option.some.inj ((found mem).symm.trans h)
    exact mem
  · have none : d.index.parent? k = none :=
      Std.TreeMap.getElem?_ofList_of_contains_eq_false (Bool.not_eq_true _ ▸ known)
    rw [none] at h
    cases h

/-- Whatever hides, a node that shows is inside of a node that shows. -/
theorem parent?_index_iff (hk : k ∈ d.node.shown.preorder) :
    d.index.parent? k = some p ↔ p ∈ d.node.shown.preorder ∧ k ∈ p.children := by
  have linked {p : Tree Placed} (hp : p ∈ d.node.shown.preorder) (child : k ∈ p.children) :
      (k.place, p) ∈ d.node.links := by
    obtain ⟨q, hq, rfl⟩ := (Node.mem_preorder_shown _).mp hp
    rw [Node.children_shown] at child
    obtain ⟨m, hm, rfl⟩ := List.mem_map.mp child
    exact Node.mem_links_iff.mpr ⟨q, (Node.visible_sublist _).subset hq, m,
      (Node.inside_sublist q).subset hm, (Node.place_shown m).symm, rfl⟩
  rw [parent?_index]
  refine ⟨fun h => ?_, fun ⟨hp, child⟩ => linked hp child⟩
  rcases eq_or_child hk with rfl | ⟨q, hq, child⟩
  · rw [Node.place_shown] at h
    exact absurd (List.mem_map_of_mem h) (List.nodup_cons.mp d.nodup_links).1
  · obtain rfl : q = p := by
      have same := (d.parent?_index.mpr (linked hq child)).symm.trans (d.parent?_index.mpr h)
      exact Option.some.inj same
    exact ⟨hq, child⟩

/-- Nothing that has a value shows anything inside. -/
theorem inside_eq_nil {n : Node} (hn : n ∈ d.node.preorder) (h : n.seen.value.isSome) :
    n.inside = [] := by
  unfold Node.seen at h
  split at h
  · cases h
  · by_cases textOnly : n.isTextOnly
    · rw [Node.inside, if_pos textOnly]
    · rw [if_neg textOnly] at h
      cases h
  · rename_i offset text isText
    have none : n.children = [] := by
      by_contra parent
      rcases d.isElement_of_child hn parent with rfl | isElement
      · cases isText
      · simp [Node.isElement, isText] at isElement
    rw [Node.inside, none]
    split <;> rfl
  · cases h

section

variable {d} (hk : k ∈ d.node.shown.preorder)

include hk

theorem parent?_handle_eq_some_iff {h : Handle} : (d.index.handle k).parent? = some h ↔
    h ∈ d.root.walk ∧ d.index.handle k ∈ h.children := by
  change (d.index.parent? k).map d.index.handle = some h ↔ _
  rw [Option.map_eq_some_iff, Handle.mem_walk_iff, Handle.children_eq, List.mem_map]
  constructor
  · rintro ⟨m, found, rfl⟩
    obtain ⟨hm, child⟩ := (d.parent?_index_iff hk).mp found
    exact ⟨⟨hm, rfl⟩, k, child, rfl⟩
  · rintro ⟨⟨hm, same⟩, c, child, handle⟩
    obtain ⟨rfl, -⟩ := Handle.mk.inj handle
    refine ⟨h.node, (d.parent?_index_iff hk).mpr ⟨hm, child⟩, ?_⟩
    exact congrArg (Handle.mk h.node) same.symm

theorem parent?_handle_eq_none_iff :
    (d.index.handle k).parent? = none ↔ d.index.handle k = d.root := by
  constructor
  · intro none
    rcases eq_or_child hk with rfl | ⟨m, hm, child⟩
    · rfl
    · have found := (d.parent?_index_iff hk).mpr ⟨hm, child⟩
      have known : (d.index.handle k).parent? = some (d.index.handle m) :=
        congrArg (Option.map d.index.handle) found
      cases none.symm.trans known
  · intro top
    obtain ⟨rfl, -⟩ := Handle.mk.inj top
    refine Option.eq_none_iff_forall_ne_some.mpr fun h found => ?_
    obtain ⟨p, found, -⟩ := Option.map_eq_some_iff.mp found
    obtain ⟨hp, child⟩ := (d.parent?_index_iff hk).mp found
    exact d.ordered_shown.not_child_top hp child rfl

theorem isTerminal_handle_iff :
    (d.index.handle k).isTerminal ↔ (d.index.handle k).value?.isSome := by
  obtain ⟨m, hm, rfl⟩ := (Node.mem_preorder_shown _).mp hk
  have nothing := d.inside_eq_nil ((Node.visible_sublist _).subset hm)
  change ((Node.shown m).label.value.isSome && ((Node.shown m).children.map _).isEmpty) = true ↔
    (Node.shown m).label.value.isSome
  rw [Node.label_shown, Node.children_shown, Bool.and_eq_true, List.isEmpty_map,
    List.isEmpty_map, List.isEmpty_iff]
  exact and_iff_left_of_imp nothing

theorem sound_handle : (d.index.handle k).Sound d.node.shown :=
  ⟨hk, fun _ same => Option.some.inj same ▸ fun _ hn _ => (d.parent?_index_iff hn).mp⟩

theorem follow_handle (axis : Axis) : axis.follow (d.index.handle k) d.root =
    (axis.follow (.plain k) (.plain d.root.node)).map fun h => d.index.handle h.node := by
  have ordered := d.ordered_shown
  have whole := d.node.shown.self_mem_preorder
  have plain : (Handle.plain k).Sound d.node.shown := (Handle.within_plain hk).sound ordered
  have without : axis.follow (.plain k) (.plain d.root.node) =
      (axis.reach k d.node.shown).map .plain := axis.follow_eq ordered whole hk plain (.inl rfl)
  rw [without, List.map_map]
  exact axis.follow_eq ordered whole hk (sound_handle hk) (.inr (.inl rfl))

end

end Document

/-- Of the handles that children lead to from the root of a document, each is reached once, the parent of
one is what it is a child of, only the root has none, those with a value are the terminals, and every
axis leads to the same nodes as if no parent were known. -/
theorem handles_of_document (d : Document) :
    (d.root.walk.map Handle.place).Nodup ∧
    ∀ n ∈ d.root.walk,
      (∀ p, n.parent? = some p ↔ p ∈ d.root.walk ∧ n ∈ p.children) ∧
      (n.parent? = none ↔ n = d.root) ∧
      (n.isTerminal ↔ n.value?.isSome) ∧
      ∀ axis : Axis, axis.follow n d.root =
        (axis.follow (.plain n.node) (.plain d.root.node)).map fun h => d.index.handle h.node := by
  constructor
  · rw [Handle.walk_eq, List.map_map]
    exact d.ordered_shown.nodup
  · intro n hn
    rw [Handle.walk_eq] at hn
    obtain ⟨k, hk, rfl⟩ := List.mem_map.mp hn
    exact ⟨fun _ => Document.parent?_handle_eq_some_iff hk, Document.parent?_handle_eq_none_iff hk,
      Document.isTerminal_handle_iff hk, Document.follow_handle hk⟩

theorem handles_of_document_mixed :
    let b : Content := .element 13 "b" .empty [.text 16 "y"]
    let a : Content := .element 0 "a" .empty [.text 3 " ", .aside, .text 12 "x", b]
    let d : Document := ⟨[a]⟩
    let parent := d.index.handle (a.node 1).shown
    let child := d.index.handle (b.node 5).shown
    child ∈ d.root.walk ∧ child.parent? = some parent ∧ child.isTerminal ∧
      Axis.ancestor.follow child d.root =
        (Axis.ancestor.follow (.plain child.node) (.plain d.root.node)).map
          fun h => d.index.handle h.node := by
  intro b a d parent child
  have hchild : child ∈ d.root.walk := Handle.mem_walk_iff.mpr ⟨by decide, rfl⟩
  have hparent : parent ∈ d.root.walk := Handle.mem_walk_iff.mpr ⟨by decide, rfl⟩
  have inside : child ∈ parent.children := List.mem_map_of_mem (by decide)
  obtain ⟨-, each⟩ := handles_of_document d
  obtain ⟨parents, -, terminal, axes⟩ := each child hchild
  exact ⟨hchild, (parents parent).mpr ⟨hparent, inside⟩, terminal.mpr rfl, axes .ancestor⟩

end Xml

end TreeQuery
