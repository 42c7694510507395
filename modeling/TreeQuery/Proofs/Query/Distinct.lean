import Mathlib.Data.List.Basic
import Mathlib.Data.List.Nodup
import TreeQuery.Proofs.Query.Answer

namespace TreeQuery

namespace Handle

variable {hs : List Handle} {p : Nat}

theorem mem_map_place_keep {found : List Handle} {h : Handle} :
    p ∈ (keep found h).map place ↔ p ∈ found.map place ∨ p = h.place := by
  unfold keep
  split
  · rename_i before
    exact ⟨.inl, fun mem => mem.elim id fun same => same ▸ before⟩
  · rw [List.map_append, List.mem_append, List.map_singleton, List.mem_singleton]

theorem mem_map_place_foldl_keep {found : List Handle} :
    p ∈ (hs.foldl keep found).map place ↔ p ∈ found.map place ∨ p ∈ hs.map place := by
  induction hs generalizing found with
  | nil => simp
  | cons h hs ih =>
    rw [List.foldl_cons, ih, mem_map_place_keep, List.map_cons, List.mem_cons, or_assoc]

theorem nodup_foldl_keep {found : List Handle} (nodup : (found.map place).Nodup) :
    ((hs.foldl keep found).map place).Nodup := by
  induction hs generalizing found with
  | nil => exact nodup
  | cons h hs ih =>
    refine ih ?_
    unfold keep
    split
    · exact nodup
    · rename_i new
      rw [List.map_append, List.map_singleton, ← List.concat_eq_append]
      exact nodup.concat new

theorem mem_map_place_distinct : p ∈ (distinct hs).map place ↔ p ∈ hs.map place := by
  rw [distinct_eq, mem_map_place_foldl_keep]
  simp

theorem nodup_distinct (hs : List Handle) : ((distinct hs).map place).Nodup := by
  rw [distinct_eq]
  exact nodup_foldl_keep List.nodup_nil

/-- What is added behind others are the first handles on nodes that are not among theirs. -/
theorem foldl_keep_eq (hs found : List Handle) :
    hs.foldl keep found =
      found ++ (hs.filter fun h => decide (h.place ∉ found.map place)).eraseDups := by
  induction hs generalizing found with
  | nil => simp
  | cons h hs ih =>
    rw [List.foldl_cons, ih, List.filter_cons, keep]
    by_cases before : h.place ∈ found.map place
    · rw [if_pos before, if_neg (by simpa using before)]
    · rw [if_neg before, if_pos (by simpa using before), List.eraseDups_cons, List.append_assoc,
        List.filter_filter]
      have later : (fun k : Handle => decide (k.place ∉ (found ++ [h]).map place)) =
          fun k => !k == h && decide (k.place ∉ found.map place) := by
        funext k
        rw [Bool.eq_iff_iff, Bool.and_eq_true, Bool.not_eq_true', ← Bool.not_eq_true, beq_iff]
        simp [and_comm]
      rw [later]
      rfl

/-- Handles are compared by their nodes, so later repetitions of a node are what is dropped. -/
theorem distinct_eq_eraseDups (hs : List Handle) : distinct hs = hs.eraseDups := by
  rw [distinct_eq, foldl_keep_eq]
  simp

/-- Adding handles in two goes keeps the same as adding them in one. -/
theorem foldl_keep_foldl_keep (hs found first : List Handle) :
    (hs.foldl keep found).foldl keep first = hs.foldl keep (found.foldl keep first) := by
  induction hs generalizing found with
  | nil => rfl
  | cons h hs ih =>
    rw [List.foldl_cons, ih, List.foldl_cons]
    congr 1
    by_cases before : h.place ∈ found.map place
    · have already : h.place ∈ (found.foldl keep first).map place :=
        mem_map_place_foldl_keep.mpr (.inr before)
      rw [keep, if_pos before, keep, if_pos already]
    · rw [keep, if_neg before, List.foldl_append, List.foldl_cons, List.foldl_nil]

/-- Repetitions within a part need not be dropped before those of the whole. -/
theorem distinct_append_distinct (before hs after : List Handle) :
    distinct (before ++ distinct hs ++ after) = distinct (before ++ hs ++ after) := by
  simp only [distinct_eq, List.foldl_append, foldl_keep_foldl_keep, List.foldl_nil]

end Handle

end TreeQuery
