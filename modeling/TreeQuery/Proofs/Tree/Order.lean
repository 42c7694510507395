import Mathlib.Data.List.Flatten
import Mathlib.Data.List.Nodup
import Mathlib.Data.List.Pairwise
import Mathlib.Data.List.Perm.Basic
import TreeQuery.Tree.Handle

namespace TreeQuery.Tree

variable {α : Type}

mutual
/-- What passes from the children of a node to the node holds of all trees. -/
theorem byChildren {motive : Tree α → Prop} (step : ∀ t, (∀ c ∈ t.children, motive c) → motive t) :
    ∀ t, motive t
  | ⟨label, children⟩ => step ⟨label, children⟩ (allByChildren step children)
theorem allByChildren {motive : Tree α → Prop}
    (step : ∀ t, (∀ c ∈ t.children, motive c) → motive t) :
    ∀ ts : List (Tree α), ∀ c ∈ ts, motive c
  | [], _, h => nomatch h
  | t :: _, _, .head _ => byChildren step t
  | _ :: ts, c, .tail _ h => allByChildren step ts c h
end

theorem mem_preorders_iff {ts : List (Tree α)} {n : Tree α} :
    n ∈ preorders ts ↔ ∃ t ∈ ts, n ∈ t.preorder := by
  rw [preorders_eq_flatMap, List.mem_flatMap]

theorem mem_preorder_iff {t n : Tree α} :
    n ∈ t.preorder ↔ n = t ∨ ∃ c ∈ t.children, n ∈ c.preorder := by
  rw [preorder_eq, List.mem_cons, mem_preorders_iff]

theorem self_mem_preorder (t : Tree α) : t ∈ t.preorder := mem_preorder_iff.mpr (.inl rfl)

theorem child_mem_preorder {t c : Tree α} (h : c ∈ t.children) : c ∈ t.preorder :=
  mem_preorder_iff.mpr (.inr ⟨c, h, c.self_mem_preorder⟩)

/-- What maps the children of a node to the children of its image maps all nodes in their order. -/
theorem preorder_eq_map {β : Type} {g : Tree α → Tree β}
    (below : ∀ t, (g t).children = t.children.map g) (t : Tree α) :
    (g t).preorder = t.preorder.map g := by
  induction t using byChildren with
  | step t ih =>
    rw [preorder_eq, preorder_eq t, preorders_eq_flatMap, preorders_eq_flatMap, below,
      List.map_cons, List.map_flatMap, List.flatMap_map]
    exact congrArg _ (List.flatMap_congr ih)

theorem preorder_sublist {t n : Tree α} (h : n ∈ t.preorder) : n.preorder.Sublist t.preorder := by
  induction t using byChildren with
  | step t ih =>
    rcases mem_preorder_iff.mp h with rfl | ⟨c, hc, hn⟩
    · exact .refl _
    · have inner : c.preorder.Sublist (preorders t.children) := by
        rw [preorders_eq_flatMap]
        simpa using (List.singleton_sublist.mpr hc).flatMap preorder
      rw [preorder_eq t]
      exact ((ih c hc hn).trans inner).cons t

theorem mem_preorder_trans {t m n : Tree α} (hm : m ∈ t.preorder) (hn : n ∈ m.preorder) :
    n ∈ t.preorder := (preorder_sublist hm).subset hn

theorem child_mem {t m n : Tree α} (hm : m ∈ t.preorder) (hn : n ∈ m.children) : n ∈ t.preorder :=
  mem_preorder_trans hm (child_mem_preorder hn)

/-- The children of all nodes are all nodes but the topmost. -/
theorem below_perm (t : Tree α) : (t.preorder.flatMap children).Perm (preorders t.children) := by
  have forest : ∀ ts : List (Tree α),
      (∀ c ∈ ts, (c.preorder.flatMap children).Perm (preorders c.children)) →
      (ts ++ (preorders ts).flatMap children).Perm (preorders ts) := by
    intro ts
    induction ts with
    | nil => simp [preorders]
    | cons t ts ih =>
      intro all
      have first := all t (by simp)
      have others := ih fun c hc => all c (by simp [hc])
      rw [preorders, List.flatMap_append, preorder_eq t, List.cons_append, List.cons_append,
        ← preorder_eq t]
      exact ((List.perm_append_comm_assoc _ _ _).trans (first.append others)).cons t
  induction t using byChildren with
  | step t ih =>
    rw [preorder_eq, List.flatMap_cons]
    exact forest t.children ih

/-- In lists that are joined without repetition, an item tells its list. -/
theorem eq_of_nodup_flatMap {β γ : Type} {items : List β} {f : β → List γ}
    (nodup : (items.flatMap f).Nodup) {a b : β} {c : γ} (ha : a ∈ items) (hb : b ∈ items)
    (hac : c ∈ f a) (hbc : c ∈ f b) : a = b := by
  apply Classical.byContradiction
  intro other
  have symm : Std.Symm (Function.onFun List.Disjoint f) := ⟨fun _ _ => List.disjoint_symm⟩
  exact (List.nodup_flatMap.mp nodup).2.forall ha hb other hac hbc

/-- Places go up in preorder, as in a numbered tree and in every part of one. -/
def Ordered (t : Tree Placed) : Prop := (t.preorder.map place).Pairwise (· < ·)

theorem ordered_placed (t : Tree Label) : t.placed.Ordered := by
  rw [Ordered, map_place_preorder_placed]
  exact List.pairwise_lt_range

section

variable {t m n : Tree Placed}

theorem Ordered.part (h : t.Ordered) (hn : n ∈ t.preorder) : n.Ordered :=
  h.sublist ((preorder_sublist hn).map place)

theorem Ordered.nodup (h : t.Ordered) : (t.preorder.map place).Nodup :=
  h.imp Nat.ne_of_lt

/-- A place tells its node. -/
theorem Ordered.eq_of_place (h : t.Ordered) (hm : m ∈ t.preorder) (hn : n ∈ t.preorder)
    (same : m.place = n.place) : m = n :=
  List.inj_on_of_nodup_map h.nodup hm hn same

theorem Ordered.lt_of_below (h : t.Ordered) (hn : n ∈ preorders t.children) :
    t.place < n.place := by
  rw [Ordered, preorder_eq, List.map_cons, List.pairwise_cons] at h
  exact h.1 _ (List.mem_map_of_mem hn)

/-- The children of all nodes of an ordered tree are the nodes below its top. -/
theorem Ordered.mem_below_iff (h : n.Ordered) :
    m ∈ n.preorder.flatMap children ↔ m ∈ n.preorder ∧ m ≠ n := by
  rw [(below_perm n).mem_iff, preorder_eq, List.mem_cons]
  constructor
  · intro hm
    refine ⟨.inr hm, ?_⟩
    rintro rfl
    exact absurd (h.lt_of_below hm) (Nat.lt_irrefl _)
  · exact fun hm => hm.1.resolve_left hm.2

theorem Ordered.lt_of_child (h : t.Ordered) (hm : m ∈ t.preorder) (hn : n ∈ m.children) :
    m.place < n.place := by
  apply (h.part hm).lt_of_below
  exact mem_preorders_iff.mpr ⟨n, hn, n.self_mem_preorder⟩

/-- The topmost node is no node's child. -/
theorem Ordered.not_child_top (h : t.Ordered) (hm : m ∈ t.preorder) (hn : n ∈ m.children) :
    n.place ≠ t.place := by
  have lt := h.lt_of_child hm hn
  rcases List.mem_cons.mp (preorder_eq t ▸ hm) with rfl | below
  · exact Nat.ne_of_gt lt
  · exact Nat.ne_of_gt (Nat.lt_trans (h.lt_of_below below) lt)

theorem Ordered.parent_unique (h : t.Ordered) {m' n' : Tree Placed} (hm : m ∈ t.preorder)
    (hm' : m' ∈ t.preorder) (hn : n ∈ m.children) (hn' : n' ∈ m'.children)
    (same : n.place = n'.place) : m = m' := by
  obtain rfl := h.eq_of_place (child_mem hm hn) (child_mem hm' hn') same
  have below : (t.preorder.flatMap children).Nodup := by
    rw [t.below_perm.nodup_iff]
    have nodup := h.nodup.of_map
    rw [preorder_eq] at nodup
    exact nodup.of_cons
  exact eq_of_nodup_flatMap below hm hm' hn hn'

end

end TreeQuery.Tree
