import TreeQuery.Proofs.Tree.Descent

namespace TreeQuery.Tree

section

variable {α β : Type} (f : α → β)

theorem label_map (t : Tree α) : (t.map f).label = f t.label := by
  cases t
  rfl

theorem children_map (t : Tree α) : (t.map f).children = t.children.map (map f) := by
  cases t
  exact maps_eq_map f _

theorem preorder_map (t : Tree α) : (t.map f).preorder = t.preorder.map (map f) :=
  preorder_eq_map (children_map f) t

end

/-- The tree with all places moved up. -/
def shift (count : Nat) (t : Tree Placed) : Tree Placed :=
  t.map fun label => { label with place := label.place + count }

section

variable (count : Nat) {t n : Tree Placed}

theorem toLabel_shift (t : Tree Placed) :
    (t.shift count).label.toLabel = t.label.toLabel := by
  cases t
  rfl

@[simp] theorem place_shift (t : Tree Placed) : (t.shift count).place = t.place + count := by
  cases t
  rfl

@[simp] theorem children_shift (t : Tree Placed) :
    (t.shift count).children = t.children.map (shift count) := children_map _ t

theorem preorder_shift (t : Tree Placed) :
    (t.shift count).preorder = t.preorder.map (shift count) := preorder_map _ t

theorem mem_preorder_shift (h : n ∈ t.preorder) : n.shift count ∈ (t.shift count).preorder := by
  rw [preorder_shift]
  exact List.mem_map_of_mem h

theorem Ordered.shift (h : t.Ordered) : (t.shift count).Ordered := by
  rw [Ordered, preorder_shift, List.map_map, List.pairwise_map]
  refine (List.pairwise_map.mp h).imp fun lt => ?_
  simpa using lt

theorem wayTo_shift (place : Nat) (t : Tree Placed) :
    wayTo (place + count) (t.shift count) = (wayTo place t).map (List.map (shift count)) := by
  induction t using byChildren with
  | step t ih =>
    rw [wayTo_eq, wayTo_eq, place_shift, children_shift, waysTo_eq, waysTo_eq, List.findSome?_map]
    by_cases here : t.place = place
    · rw [if_pos (by rw [here]), if_pos here]
      rfl
    · have below : t.children.findSome? (wayTo (place + count) ∘ shift count) =
          t.children.findSome? (Option.map (List.map (shift count)) ∘ wayTo place) := by
        generalize t.children = cs at ih
        induction cs with
        | nil => rfl
        | cons c cs more =>
          rw [List.findSome?_cons, List.findSome?_cons, more fun d hd => ih d (by simp [hd])]
          rw [Function.comp_apply, Function.comp_apply, ih c (by simp)]
      rw [if_neg (by omega), if_neg here, below, ← List.map_findSome?, Option.map_map,
        Option.map_map]
      rfl

end

mutual
theorem shift_placedFrom (count : Nat) : ∀ (t : Tree Label) (start : Nat),
    (t.placedFrom start).shift count = t.placedFrom (start + count)
  | ⟨label, children⟩, start => by
    have below := maps_placesFrom count children (start + 1)
    rw [placedFrom, placedFrom, shift, map, below, Nat.add_right_comm]
theorem maps_placesFrom (count : Nat) : ∀ (ts : List (Tree Label)) (start : Nat),
    maps (fun label : Placed => { label with place := label.place + count })
      (placesFrom start ts) = placesFrom (start + count) ts
  | [], _ => rfl
  | t :: ts, start => by
    have first := shift_placedFrom count t start
    rw [shift] at first
    rw [placesFrom, maps, first, maps_placesFrom count ts, placesFrom, Nat.add_right_comm]
end

mutual
theorem eq_placedFrom : ∀ (t : Tree Label) (start : Nat), ∀ c ∈ (t.placedFrom start).preorder,
    c = c.unplaced.placedFrom c.place
  | ⟨label, children⟩, start, c, h => by
    rw [preorder_eq] at h
    rcases List.mem_cons.mp h with rfl | h
    · rw [unplaced_placedFrom]
      rfl
    · exact eq_placedFrom_of_places children (start + 1) c h
theorem eq_placedFrom_of_places : ∀ (ts : List (Tree Label)) (start : Nat),
    ∀ c ∈ preorders (placesFrom start ts), c = c.unplaced.placedFrom c.place
  | [], _, _, h => nomatch h
  | t :: ts, start, c, h => by
    rw [placesFrom, preorders] at h
    rcases List.mem_append.mp h with h | h
    · exact eq_placedFrom t start c h
    · exact eq_placedFrom_of_places ts _ c h
end

/-- A part of a numbered tree is a numbered tree itself, with its places moved up to its own. -/
theorem shift_placed_unplaced {t : Tree Label} {c : Tree Placed} (h : c ∈ t.placed.preorder) :
    c.unplaced.placed.shift c.place = c := by
  rw [placed, shift_placedFrom, Nat.zero_add]
  exact (eq_placedFrom t 0 c h).symm

end TreeQuery.Tree
