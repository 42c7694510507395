import TreeQuery.Proofs.Tree.Shift
import TreeQuery.Xml.View

namespace TreeQuery.Xml

open TreeQuery.Tree

mutual
/-- Nodes are numbered one by one in the order of the document. -/
theorem Content.map_place_node : ∀ (c : Content) (start : Nat),
    (c.node start).preorder.map Node.place = List.range' start (c.node start).size
  | .element _ _ _ content, start => by
    rw [Content.node, preorder, List.map_cons, map_place_nodes content, size, Nat.add_comm 1,
      List.range'_succ]
    rfl
  | .text .., _ => rfl
  | .aside, _ => rfl
theorem map_place_nodes : ∀ (cs : List Content) (start : Nat),
    (preorders (nodes start cs)).map Node.place = List.range' start (sizes (nodes start cs))
  | [], _ => rfl
  | c :: cs, start => by
    rw [nodes, preorders, List.map_append, c.map_place_node, map_place_nodes cs, sizes,
      List.range'_append_1]
end

mutual
/-- Only in elements there is anything inside. -/
theorem Content.isElement_node : ∀ (c : Content) (start : Nat),
    ∀ n ∈ (c.node start).preorder, n.children ≠ [] → Node.isElement n
  | .element offset name attributes content, start, n, hn, parent => by
    rw [Content.node, preorder] at hn
    rcases List.mem_cons.mp hn with rfl | hn
    · rfl
    · exact isElement_nodes content _ n hn parent
  | .text .., _, _, .head _, parent => absurd rfl parent
  | .aside, _, _, .head _, parent => absurd rfl parent
theorem isElement_nodes : ∀ (cs : List Content) (start : Nat),
    ∀ n ∈ preorders (nodes start cs), n.children ≠ [] → Node.isElement n
  | [], _, _, hn, _ => nomatch hn
  | c :: cs, start, n, hn, parent => by
    rw [nodes, preorders] at hn
    rcases List.mem_append.mp hn with hn | hn
    · exact c.isElement_node _ n hn parent
    · exact isElement_nodes cs _ n hn parent
end

namespace Node

theorem views_eq (ns : List Node) : views ns = (ns.filter shows).map view := by
  induction ns with
  | nil => rfl
  | cons n ns ih =>
    rw [views, List.filter_cons, ih]
    split <;> rfl

variable (n : Node)

theorem view_eq : view n = ⟨n, (inside n).map view⟩ := by
  cases n
  rw [view, inside]
  split
  · rfl
  · rw [views_eq]

/-- The nodes that are reached from a node through children that show. -/
def visible : List Node := (view n).preorder.map Tree.label

theorem visible_eq : visible n = n :: (inside n).flatMap visible := by
  rw [visible, view_eq, preorder, preorders_eq_flatMap, List.map_cons, List.flatMap_map,
    List.map_flatMap]
  rfl

theorem inside_sublist : (inside n).Sublist n.children := by
  unfold inside
  split
  · exact List.nil_sublist _
  · exact List.filter_sublist

theorem visible_sublist : (visible n).Sublist n.preorder := by
  induction n using byChildren with
  | step n ih =>
    rw [visible_eq, preorder_eq, preorders_eq_flatMap]
    exact (((inside_sublist n).flatMap visible).trans (.flatMap_right _ ih)).cons_cons n

@[simp] theorem label_shown : (shown n).label = seen n := by
  rw [shown, view_eq]
  rfl

@[simp] theorem children_shown : (shown n).children = (inside n).map shown := by
  rw [shown, children_map, view_eq, List.map_map]
  rfl

theorem place_seen : (seen n).place = place n := by
  unfold seen
  split <;> rfl

@[simp] theorem place_shown : (shown n).place = place n := by
  rw [Tree.place, label_shown, place_seen]

theorem preorder_shown : (shown n).preorder = (visible n).map shown := by
  induction n using byChildren with
  | step n ih =>
    rw [preorder_eq, children_shown, preorders_eq_flatMap, visible_eq, List.map_cons,
      List.flatMap_map, List.map_flatMap]
    exact congrArg _ (List.flatMap_congr fun c hc => ih c ((inside_sublist n).subset hc))

theorem mem_preorder_shown {k : Tree Placed} :
    k ∈ (shown n).preorder ↔ ∃ m ∈ visible n, shown m = k := by
  rw [preorder_shown, List.mem_map]

end Node

namespace Document

variable (d : Document)

theorem map_place_node : d.node.preorder.map Node.place = List.range' 0 d.node.size := by
  rw [node, preorder, List.map_cons, map_place_nodes, size, Nat.add_comm 1, List.range'_succ]
  rfl

theorem nodup_place : (d.node.preorder.map Node.place).Nodup := by
  rw [map_place_node]
  exact List.nodup_range'

/-- Hiding nodes does not disturb the order of the others. -/
theorem ordered_shown : d.node.shown.Ordered := by
  have places : d.node.shown.preorder.map Tree.place = d.node.visible.map Node.place := by
    rw [Node.preorder_shown, List.map_map]
    exact List.map_congr_left fun n _ => n.place_shown
  rw [Ordered, places]
  refine List.Pairwise.sublist (d.node.visible_sublist.map Node.place) ?_
  rw [map_place_node]
  exact List.pairwise_lt_range'

/-- A text or an aside has nothing inside. -/
theorem isElement_of_child {n : Node} (hn : n ∈ d.node.preorder) (parent : n.children ≠ []) :
    n = d.node ∨ n.isElement := by
  rw [preorder_eq] at hn
  exact (List.mem_cons.mp hn).imp_right fun hn => isElement_nodes d.content 1 n hn parent

end Document

end TreeQuery.Xml
