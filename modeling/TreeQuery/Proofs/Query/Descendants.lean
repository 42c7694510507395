import Mathlib.Logic.Relation
import TreeQuery.Proofs.Query.Relations
import TreeQuery.Proofs.Xml.View

namespace TreeQuery

open TreeQuery.Tree

namespace Handle

/-- The handles below one: its children in order, and then what is below each of them in turn. -/
def below (h : Handle) : List Handle := h.children ++ h.children.attach.flatMap fun c => below c.1
termination_by h.node.height
decreasing_by exact height_lt_of_child c.2

theorem below_eq (h : Handle) : h.below = h.children ++ h.children.flatMap below := by
  rw [below, List.flatMap_subtype (g := below) fun _ _ => rfl, List.unattach_attach]

/-- Naming the children of a node before anything below them is naming the children of all nodes in
preorder. -/
theorem below_eq_flatMap_walk (h : Handle) : h.below = h.walk.flatMap children := by
  induction h using byChildren with
  | step h ih =>
    rw [below_eq, walk_cons, List.flatMap_cons, List.flatMap_assoc]
    exact congrArg _ (List.flatMap_congr ih)

theorem below_eq_map (h : Handle) :
    h.below = (h.node.preorder.flatMap Tree.children).map (Handle.mk · h.index) := by
  rw [below_eq_flatMap_walk, walk_eq, List.flatMap_map, List.map_flatMap]
  rfl

/-- Gathering with a stack of pending nodes finds the nodes in the order of the recursion. -/
theorem descendants_eq_below (h : Handle) : h.descendants = h.below := by
  rw [descendants_eq, below_eq_map]

/-- The first handle is on the parent of the second one's node. -/
def IsParent (h k : Handle) : Prop := k ∈ h.children

theorem mem_walk_iff_reflTransGen {h k : Handle} :
    k ∈ h.walk ↔ Relation.ReflTransGen IsParent h k := by
  constructor
  · induction h using byChildren with
    | step h ih =>
      intro hk
      rw [walk_cons] at hk
      rcases List.mem_cons.mp hk with rfl | hk
      · exact .refl
      · obtain ⟨c, hc, hk⟩ := List.mem_flatMap.mp hk
        exact .head hc (ih c hc hk)
  · intro path
    induction path with
    | refl => exact mem_walk_iff.mpr ⟨h.node.self_mem_preorder, rfl⟩
    | @tail m k _ child ih =>
      obtain ⟨hm, index⟩ := mem_walk_iff.mp ih
      obtain ⟨n, hn, rfl⟩ := List.mem_map.mp child
      exact mem_walk_iff.mpr ⟨child_mem hm hn, index⟩

/-- Below a handle is what one or more steps to a child lead to. -/
theorem mem_below_iff {h k : Handle} : k ∈ h.below ↔ Relation.TransGen IsParent h k := by
  rw [below_eq_flatMap_walk, List.mem_flatMap, Relation.TransGen.tail'_iff]
  exact exists_congr fun m => and_congr_left fun _ => mem_walk_iff_reflTransGen

section

variable {h : Handle} (ordered : h.node.Ordered)

include ordered

/-- Places tell the handles of a walk from each other, and the walk passes them in order. -/
theorem walk_ascending : (h.walk.map place).Pairwise (· < ·) := by
  rw [walk_eq, List.map_map]
  exact ordered

theorem nodup_below : (h.below.map place).Nodup := by
  rw [below_eq_map, List.map_map]
  exact ordered.nodup_below

/-- In a walk a parent comes before its children, and no node has two parents. -/
theorem place_lt_of_isParent {m k : Handle} (hm : m ∈ h.walk) (child : m.IsParent k) :
    m.place < k.place := by
  obtain ⟨n, hn, rfl⟩ := List.mem_map.mp child
  exact ordered.lt_of_child (mem_walk_iff.mp hm).1 hn

theorem parent_unique {m m' k : Handle} (hm : m ∈ h.walk) (hm' : m' ∈ h.walk)
    (child : m.IsParent k) (child' : m'.IsParent k) : m.place = m'.place := by
  obtain ⟨n, hn, rfl⟩ := List.mem_map.mp child
  obtain ⟨n', hn', same⟩ := List.mem_map.mp child'
  obtain rfl : n' = n := congrArg Handle.node same
  have only := ordered.parent_unique (mem_walk_iff.mp hm).1 (mem_walk_iff.mp hm').1 hn hn' rfl
  exact congrArg Tree.place only

/-- No node stands before its parent. -/
theorem below_parentFirst : h.below.Pairwise fun k m => ¬ m.IsParent k := by
  have inWalk {a m : Handle} (ha : a ∈ h.walk) (child : a.IsParent m) : m ∈ h.walk :=
    mem_walk_iff_reflTransGen.mpr ((mem_walk_iff_reflTransGen.mp ha).tail child)
  -- If `m` had `k` as a child it would be the node `a` in whose list of children `k` is.
  have apart {a b k m : Handle} (ha : a ∈ h.walk) (hb : b ∈ h.walk) (le : a.place ≤ b.place)
      (hk : a.IsParent k) (hm : b.IsParent m) : ¬ m.IsParent k := by
    intro child
    have same := parent_unique ordered ha (inWalk hb hm) hk child
    have lt := place_lt_of_isParent ordered hb hm
    omega
  rw [below_eq_flatMap_walk, List.pairwise_flatMap]
  refine ⟨fun a ha => ?_, ?_⟩
  · exact List.pairwise_of_forall_mem_list fun k hk m hm => apart ha ha (Nat.le_refl _) hk hm
  · refine (List.pairwise_map.mp (walk_ascending ordered)).imp_of_mem ?_
    intro a b ha hb lt k hk m hm
    exact apart ha hb (Nat.le_of_lt lt) hk hm

theorem parent_before_child {i j : Nat} {m k : Handle} (hm : h.below[i]? = some m)
    (hk : h.below[j]? = some k) (child : m.IsParent k) : i < j := by
  obtain ⟨hi, rfl⟩ := List.getElem?_eq_some_iff.mp hm
  obtain ⟨hj, rfl⟩ := List.getElem?_eq_some_iff.mp hk
  rcases Nat.lt_trichotomy i j with lt | rfl | lt
  · exact lt
  · have inWalk := mem_walk_iff_reflTransGen.mpr (mem_below_iff.mp (List.getElem_mem hi)).to_reflTransGen
    exact absurd (place_lt_of_isParent ordered inWalk child) (Nat.lt_irrefl _)
  · exact absurd child (List.pairwise_iff_getElem.mp (below_parentFirst ordered) j i hj hi lt)

end

end Handle

/-- In the trees that are queried, the nodes of a text's tree as well as those that show of a document,
the descendant axis lists just the nodes below a node, each once and none before its parent: the
children first and then what is below each of them, which is the children of all nodes of the subtree
in preorder. With the node itself, this comes last. -/
theorem descendants_of_node :
    (∀ t : Tree Label, ∀ n ∈ t.placed.preorder, n.Ordered) ∧
    (∀ d : Xml.Document, ∀ n ∈ d.node.shown.preorder, n.Ordered) ∧
    ∀ h root : Handle, h.node.Ordered →
      Axis.descendant.follow h root = h.below ∧
      (∀ k, k ∈ h.below ↔ Relation.TransGen Handle.IsParent h k) ∧
      (h.below.map Handle.place).Nodup ∧
      (∀ (i j : Nat) (m k : Handle), h.below[i]? = some m → h.below[j]? = some k → m.IsParent k →
        i < j) ∧
      h.below = h.walk.flatMap Handle.children ∧
      Axis.descendantOrSelf.follow h root = h.below ++ [h] := by
  refine ⟨fun t n hn => (ordered_placed t).part hn, fun d n hn => d.ordered_shown.part hn, ?_⟩
  intro h root ordered
  refine ⟨h.descendants_eq_below, fun _ => Handle.mem_below_iff, Handle.nodup_below ordered,
    fun i j m k => Handle.parent_before_child ordered, h.below_eq_flatMap_walk, ?_⟩
  rw [Axis.follow, Handle.descendants_eq_below]

theorem descendants_of_node_wide :
    let t : Tree Label := ⟨{ name := "a" },
      [⟨{ name := "b" }, [⟨{ name := "d" }, [.named "f"]⟩]⟩, ⟨{ name := "c" }, [.named "e"]⟩]⟩
    let root : Handle := .plain t.placed
    t.placed.Ordered ∧ (Axis.descendant.follow root root).map Handle.name = ["b", "c", "d", "f", "e"] ∧
      (Axis.descendantOrSelf.follow root root).map Handle.place = [1, 4, 2, 3, 5, 0] := by
  intro t root
  obtain ⟨numbered, -, each⟩ := descendants_of_node
  have ordered : t.placed.Ordered := numbered t t.placed t.placed.self_mem_preorder
  obtain ⟨found, -, -, -, inPreorder, orSelf⟩ := each root root ordered
  rw [Handle.walk_eq] at inPreorder
  rw [found, orSelf, inPreorder]
  exact ⟨ordered, by decide, by decide⟩

end TreeQuery
