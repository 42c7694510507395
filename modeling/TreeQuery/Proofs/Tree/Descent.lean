import TreeQuery.Proofs.Tree.Order
import TreeQuery.Tree.Navigation

namespace TreeQuery.Tree

variable {α : Type}

/-- The way from `r` down to `n` leads over these nodes: all of them but `r`, and `n` last. -/
inductive Descent (r : Tree α) : List (Tree α) → Tree α → Prop where
  | here : Descent r [] r
  | down {way : List (Tree α)} {m n : Tree α} (above : Descent r way m) (child : n ∈ m.children) :
    Descent r (way ++ [n]) n

namespace Descent

variable {r m n c : Tree α} {way way' : List (Tree α)}

theorem under (hc : c ∈ r.children) (h : Descent c way n) : Descent r (c :: way) n := by
  induction h with
  | here => exact .down .here hc
  | down _ child ih => exact .down ih child

theorem trans (h : Descent r way m) (h' : Descent m way' n) : Descent r (way ++ way') n := by
  induction h' with
  | here => simpa using h
  | down _ child ih =>
    rw [← List.append_assoc]
    exact .down ih child

theorem mem_preorder (h : Descent r way n) : n ∈ r.preorder := by
  induction h with
  | here => exact r.self_mem_preorder
  | down _ child ih => exact child_mem ih child

theorem subset (h : Descent r way n) : ∀ k ∈ way, k ∈ r.preorder := by
  induction h with
  | here => simp
  | down above child ih =>
    intro k hk
    rcases List.mem_append.mp hk with hk | hk
    · exact ih k hk
    · obtain rfl : k = _ := by simpa using hk
      exact child_mem above.mem_preorder child

/-- The nodes of a way, with the one it starts from, end in the one it leads to. -/
theorem ends (h : Descent r way n) : ∃ before, r :: way = before ++ [n] := by
  cases h with
  | here => exact ⟨[], rfl⟩
  | down => exact ⟨_, (List.cons_append ..).symm⟩

theorem exists_of_mem (h : n ∈ r.preorder) : ∃ way, Descent r way n := by
  induction r using byChildren with
  | step r ih =>
    rcases mem_preorder_iff.mp h with rfl | ⟨c, hc, hn⟩
    · exact ⟨[], .here⟩
    · obtain ⟨way, hway⟩ := ih c hc hn
      exact ⟨c :: way, hway.under hc⟩

/-- A way can be broken at any node on it. -/
theorem split (h : Descent r way n) (hm : m ∈ r :: way) :
    ∃ before after, way = before ++ after ∧ Descent r before m ∧ Descent m after n := by
  induction h with
  | here =>
    obtain rfl := List.mem_singleton.mp hm
    exact ⟨[], [], rfl, .here, .here⟩
  | @down way k n above child ih =>
    rw [← List.cons_append, List.mem_append, List.mem_singleton] at hm
    rcases hm with hm | rfl
    · obtain ⟨before, after, rfl, first, last⟩ := ih hm
      exact ⟨before, after ++ [n], List.append_assoc .., first, last.down child⟩
    · exact ⟨way ++ [m], [], (List.append_nil _).symm, above.down child, .here⟩

end Descent

/-- A node of a tree is the topmost or a child of another. -/
theorem eq_or_child {r n : Tree α} (h : n ∈ r.preorder) :
    n = r ∨ ∃ m ∈ r.preorder, n ∈ m.children := by
  obtain ⟨way, descent⟩ := Descent.exists_of_mem h
  cases descent with
  | here => exact .inl rfl
  | down above child => exact .inr ⟨_, above.mem_preorder, child⟩

theorem Descent.unique {t r n : Tree Placed} (ordered : t.Ordered) (hr : r ∈ t.preorder)
    {way way' : List (Tree Placed)} (h : Descent r way n) (h' : Descent r way' n) : way = way' := by
  have top : ∀ {m n}, m ∈ r.preorder → n ∈ m.children → n ≠ r := by
    intro m n hm child same
    exact (ordered.part hr).not_child_top hm child (by rw [same])
  induction h generalizing way' with
  | here =>
    cases h' with
    | here => rfl
    | down above child => exact absurd rfl (top above.mem_preorder child)
  | @down way m k above child ih =>
    generalize hk : k = k' at h'
    cases h' with
    | here => exact absurd hk (top above.mem_preorder child)
    | down above' child' =>
      subst hk
      obtain rfl := (ordered.part hr).parent_unique above.mem_preorder above'.mem_preorder child
        child' rfl
      rw [ih above']

section

variable {t r m n : Tree Placed} {way : List (Tree Placed)}

/-- Places go up along a way. -/
theorem Descent.ascending (h : Descent r way n) (ordered : r.Ordered) :
    ((r :: way).map place).Pairwise (· < ·) := by
  have below : ∀ {way n}, Descent r way n → ∀ k ∈ r :: way, k.place ≤ n.place := by
    intro way n h
    induction h with
    | here => simp
    | @down way m n above child ih =>
      intro k hk
      rw [← List.cons_append, List.mem_append, List.mem_singleton] at hk
      rcases hk with hk | rfl
      · have up := ordered.lt_of_child above.mem_preorder child
        exact Nat.le_of_lt (Nat.lt_of_le_of_lt (ih k hk) up)
      · exact Nat.le_refl _
  induction h with
  | here => exact List.pairwise_singleton _ _
  | @down way m n above child ih =>
    rw [← List.cons_append, List.map_append, List.pairwise_append]
    refine ⟨ih, List.pairwise_singleton _ _, fun a ha b hb => ?_⟩
    obtain ⟨k, hk, rfl⟩ := List.mem_map.mp ha
    obtain rfl := List.mem_singleton.mp hb
    exact Nat.lt_of_le_of_lt (below above k hk) (ordered.lt_of_child above.mem_preorder child)

/-- The nodes on the way to a node are those it is in the tree of. -/
theorem Descent.mem_iff (h : Descent t way n) (ordered : t.Ordered) :
    m ∈ t :: way ↔ m ∈ t.preorder ∧ n ∈ m.preorder := by
  constructor
  · intro hm
    obtain ⟨before, after, rfl, first, last⟩ := h.split hm
    exact ⟨first.mem_preorder, last.mem_preorder⟩
  · intro hm
    obtain ⟨hm, hn⟩ := hm
    obtain ⟨before, first⟩ := Descent.exists_of_mem hm
    obtain ⟨after, last⟩ := Descent.exists_of_mem hn
    obtain ⟨front, ends⟩ := first.ends
    obtain rfl := h.unique ordered t.self_mem_preorder (first.trans last)
    rw [← List.cons_append, ends]
    simp

end

mutual
/-- The nodes from the top down to the one at this place. -/
def wayTo (place : Nat) : Tree Placed → Option (List (Tree Placed))
  | ⟨label, children⟩ =>
    if label.place = place then some [⟨label, children⟩]
    else (waysTo place children).map (⟨label, children⟩ :: ·)
/-- The nodes down to the one at this place, in the first of several trees that has it. -/
def waysTo (place : Nat) : List (Tree Placed) → Option (List (Tree Placed))
  | [] => none
  | t :: ts => (wayTo place t).or (waysTo place ts)
end

section

variable {place : Nat} {t n : Tree Placed}

theorem wayTo_eq (place : Nat) (t : Tree Placed) :
    wayTo place t =
      if t.place = place then some [t] else (waysTo place t.children).map (t :: ·) := by
  cases t
  rw [wayTo]
  rfl

theorem waysTo_eq (place : Nat) (ts : List (Tree Placed)) :
    waysTo place ts = ts.findSome? (wayTo place) := by
  induction ts with
  | nil => rfl
  | cons t ts ih =>
    rw [waysTo, ih, List.findSome?_cons]
    cases wayTo place t <;> rfl

theorem wayTo_sound {path : List (Tree Placed)} (h : wayTo place t = some path) :
    ∃ way n, path = t :: way ∧ Descent t way n ∧ n.place = place := by
  induction t using byChildren generalizing path with
  | step t ih =>
    rw [wayTo_eq] at h
    split at h
    · rename_i here
      obtain rfl := Option.some.inj h
      exact ⟨[], t, rfl, .here, here⟩
    · rw [waysTo_eq] at h
      obtain ⟨rest, found, rfl⟩ := Option.map_eq_some_iff.mp h
      obtain ⟨c, hc, found⟩ := List.exists_of_findSome?_eq_some found
      obtain ⟨way, n, rfl, descent, here⟩ := ih c hc found
      exact ⟨c :: way, n, rfl, descent.under hc, here⟩

theorem wayTo_isSome (h : n ∈ t.preorder) : (wayTo n.place t).isSome := by
  induction t using byChildren with
  | step t ih =>
    rw [wayTo_eq]
    split
    · rfl
    · rename_i other
      rcases mem_preorder_iff.mp h with rfl | ⟨c, hc, hn⟩
      · exact absurd rfl other
      · rw [Option.isSome_map, waysTo_eq, List.findSome?_isSome_iff]
        exact ⟨c, hc, ih c hc hn⟩

/-- In a part of an ordered tree there is one way to each node, and it is found. -/
theorem wayTo_eq_some_iff {s : Tree Placed} (ordered : s.Ordered) (ht : t ∈ s.preorder)
    (hn : n ∈ s.preorder) {path : List (Tree Placed)} :
    wayTo n.place t = some path ↔ ∃ way, path = t :: way ∧ Descent t way n := by
  constructor
  · intro h
    obtain ⟨way, n', rfl, descent, same⟩ := wayTo_sound h
    have hn' := mem_preorder_trans ht descent.mem_preorder
    obtain rfl := ordered.eq_of_place hn' hn same
    exact ⟨way, rfl, descent⟩
  · intro h
    obtain ⟨way, rfl, descent⟩ := h
    obtain ⟨path, found⟩ := Option.isSome_iff_exists.mp (wayTo_isSome descent.mem_preorder)
    obtain ⟨way', n', rfl, descent', same⟩ := wayTo_sound found
    have hn' := mem_preorder_trans ht descent'.mem_preorder
    obtain rfl := ordered.eq_of_place hn' hn same
    rw [found, descent.unique ordered ht descent']

/-- There is a way to every node, and it is the one that is found. -/
theorem exists_wayTo (ordered : t.Ordered) (hn : n ∈ t.preorder) :
    ∃ way, Descent t way n ∧ wayTo n.place t = some (t :: way) := by
  obtain ⟨way, descent⟩ := Descent.exists_of_mem hn
  exact ⟨way, descent,
    (wayTo_eq_some_iff ordered t.self_mem_preorder hn).mpr ⟨way, rfl, descent⟩⟩

end

end TreeQuery.Tree
