import TreeQuery.Proofs.Tree.Descent
import TreeQuery.Query.Axis

namespace TreeQuery

open TreeQuery.Tree

namespace Handle

theorem beq_iff {a b : Handle} : (a == b) = true ↔ a.place = b.place := by
  change (a.place == b.place) = true ↔ _
  rw [beq_iff_eq]

theorem children_eq (h : Handle) : h.children = h.node.children.map (Handle.mk · h.index) := rfl

theorem height_lt_of_child {h c : Handle} (hc : c ∈ h.children) : c.node.height < h.node.height := by
  obtain ⟨n, hn, rfl⟩ := List.mem_map.mp hc
  have lower := heights_le_iff.mp (Nat.le_refl _) n hn
  rw [height_eq h.node]
  exact Nat.lt_one_add_iff.mpr lower

/-- What passes from the children of a handle to the handle holds of all handles. -/
theorem byChildren {motive : Handle → Prop} (step : ∀ h, (∀ c ∈ h.children, motive c) → motive h)
    (h : Handle) : motive h := by
  obtain ⟨n, index⟩ := h
  induction n using Tree.byChildren with
  | step n ih => exact step ⟨n, index⟩ (List.forall_mem_map.mpr ih)

/-- The handles that are reached from a handle through children, one for each way there. -/
def walk (h : Handle) : List Handle := h :: h.children.attach.flatMap fun c => walk c.1
termination_by h.node.height
decreasing_by exact height_lt_of_child c.2

theorem walk_cons (h : Handle) : h.walk = h :: h.children.flatMap walk := by
  rw [walk, List.flatMap_subtype (g := walk) fun _ _ => rfl, List.unattach_attach]

theorem walk_eq (h : Handle) : h.walk = h.node.preorder.map (Handle.mk · h.index) := by
  obtain ⟨n, index⟩ := h
  induction n using Tree.byChildren with
  | step n ih =>
    rw [walk_cons, children_eq, List.flatMap_map, preorder_eq, List.map_cons, preorders_eq_flatMap,
      List.map_flatMap]
    exact congrArg _ (List.flatMap_congr ih)

theorem mem_walk_iff {h k : Handle} :
    k ∈ h.walk ↔ k.node ∈ h.node.preorder ∧ k.index = h.index := by
  rw [walk_eq, List.mem_map]
  constructor
  · rintro ⟨n, hn, rfl⟩
    exact ⟨hn, rfl⟩
  · rintro ⟨hn, same⟩
    exact ⟨k.node, hn, same ▸ rfl⟩

/-- Each pending node gives out its children when it is taken up, so those of the first pending node and
of all below it come before those of the second. -/
theorem gatherBelow_eq (found : Array Handle) (pending : List Handle) :
    (gatherBelow found pending).toList = found.toList ++ pending.flatMap fun h =>
      (h.node.preorder.flatMap Tree.children).map (Handle.mk · h.index) := by
  induction found, pending using gatherBelow.induct with
  | case1 found => simp [gatherBelow]
  | case2 found h pending ih =>
    rw [gatherBelow, ih, List.flatMap_append, List.flatMap_cons, preorder_eq, preorders_eq_flatMap,
      children_eq]
    simp [List.flatMap_map, List.map_flatMap, List.flatMap_assoc]

/-- The nodes below a node are the children of it and of all below it, in preorder. -/
theorem descendants_eq (h : Handle) :
    h.descendants = (h.node.preorder.flatMap Tree.children).map (Handle.mk · h.index) := by
  rw [descendants, gatherBelow_eq]
  simp

theorem lastButOne?_eq : ∀ hs : List Handle, lastButOne? hs = hs.dropLast.getLast?
  | [] | [_] | [_, _] => rfl
  | _ :: k :: l :: rest => lastButOne?_eq (k :: l :: rest)

end Handle

end TreeQuery
