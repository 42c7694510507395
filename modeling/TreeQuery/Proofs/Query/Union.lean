import Mathlib.Data.List.Forall2
import TreeQuery.Proofs.Query.Agreement
import TreeQuery.Proofs.Query.Distinct

namespace TreeQuery

/-- A union that is a branch of another is replaced by its branches. -/
inductive Expr.Splices : Expr → Expr → Prop
  | intro (before inner after : List Expr) :
    Splices (.union (before ++ .union inner :: after)) (.union (before ++ inner ++ after))

/-- Flattening of unions, one union at a time. -/
def Rules.flattening : Rules := { expr := Expr.Splices }

namespace Expr

variable {e e' : Expr} {functions : Functions} {root start : Handle} {branches : List Expr}
  {found : List Handle}

theorem Splices.named (h : Splices e e') : e.named = e'.named := by
  obtain ⟨before, inner, after⟩ := h
  simp

theorem Splices.agrees (h : Splices e e') : e.Agrees e' := by
  refine ⟨fun name => by rw [h.named], fun functions root start => ?_⟩
  obtain ⟨before, inner, after⟩ := h
  simp only [select_union, List.flatMap_append, List.flatMap_cons]
  rw [← List.append_assoc, Handle.distinct_append_distinct]

theorem flattening_agrees :
    Congruence .flattening Expr.Agrees Step.Agrees Predicate.Agrees :=
  congruence_agrees (fun _ _ => Splices.agrees) nofun nofun

theorem flattening_named :
    Congruence .flattening (fun e e' => e.named = e'.named) (fun s s' => s.named = s'.named)
      (fun p p' => p.named = p'.named) :=
  congruence_named (fun _ _ => Splices.named) nofun nofun

theorem missing_union_eq_nil :
    (union branches).missing functions = [] ↔ ∀ e ∈ branches, e.missing functions = [] := by
  simp only [missing_eq_nil_iff, named_union, List.mem_flatMap]
  exact ⟨fun h e he name named => h name ⟨e, he, named⟩,
    fun h name ⟨e, he, named⟩ => h e he name named⟩

theorem evaluateWith_eq_ok_iff :
    (e.evaluateWith functions root start).value = .ok found ↔
      e.missing functions = [] ∧ (e.select functions root start).value = found := by
  rw [evaluateWith_value]
  split <;> simp [*]

theorem evaluateWith_union_eq_ok_iff :
    ((union branches).evaluateWith functions root start).value = .ok found ↔
      ∃ results, List.Forall₂
          (fun e result => (e.evaluateWith functions root start).value = .ok result)
          branches results ∧
        results.flatten.eraseDups = found := by
  have each (results : List (List Handle)) :
      List.Forall₂ (fun e result => (e.evaluateWith functions root start).value = .ok result)
          branches results ↔
        (∀ e ∈ branches, e.missing functions = []) ∧
          branches.map (fun e => (e.select functions root start).value) = results := by
    simp only [evaluateWith_eq_ok_iff, List.forall₂_and_left]
    refine and_congr_right' ?_
    exact List.forall₂_map_left_iff.symm.trans (iff_of_eq (by rw [List.forall₂_eq_eq_eq]))
  simp only [each, and_assoc, exists_and_left, exists_eq_left']
  rw [evaluateWith_eq_ok_iff, missing_union_eq_nil, select_union, Handle.distinct_eq_eraseDups,
    List.flatMap_def]

/-- The order of the branches decides in which order nodes are found, and not which. -/
theorem evaluateWith_union_perm {branches' : List Expr} (perm : branches.Perm branches')
    (h : ((union branches).evaluateWith functions root start).value = .ok found) :
    ∃ found', ((union branches').evaluateWith functions root start).value = .ok found' ∧
      (found'.map Handle.place).Perm (found.map Handle.place) := by
  obtain ⟨missing, rfl⟩ := evaluateWith_eq_ok_iff.mp h
  refine ⟨((union branches').select functions root start).value,
    evaluateWith_eq_ok_iff.mpr ⟨?_, rfl⟩, ?_⟩
  · rw [missing_union_eq_nil] at missing ⊢
    exact fun e he => missing e (perm.mem_iff.mpr he)
  · rw [select_union, select_union,
      List.perm_ext_iff_of_nodup (Handle.nodup_distinct _) (Handle.nodup_distinct _)]
    intro p
    rw [Handle.mem_map_place_distinct, Handle.mem_map_place_distinct]
    exact ((perm.symm.flatMap_right _).map _).mem_iff

end Expr

/-- A union succeeds just when all its branches do. It joins their matches in order and drops each
handle on a node that came before, so no node is found twice, and branches in another order find the
same nodes. A union among its branches, or anywhere else in an expression, can be replaced by its own
branches without changing the outcome. -/
theorem union_of_branches (registry : Registry) (root start : Handle) :
    (∀ branches found,
      ((Expr.union branches).evaluateFrom registry root start).value = .ok found ↔
        ∃ results, List.Forall₂
            (fun e result => (e.evaluateFrom registry root start).value = .ok result)
            branches results ∧
          results.flatten.eraseDups = found) ∧
    (∀ branches found,
      ((Expr.union branches).evaluateFrom registry root start).value = .ok found →
        (found.map Handle.place).Nodup ∧
        ∀ branches', branches.Perm branches' → ∃ found',
          ((Expr.union branches').evaluateFrom registry root start).value = .ok found' ∧
            (found'.map Handle.place).Perm (found.map Handle.place)) ∧
    ∀ e e', Expr.Rewrites .flattening e e' →
      (e'.evaluateFrom registry root start).value = (e.evaluateFrom registry root start).value := by
  refine ⟨fun branches found => Expr.evaluateWith_union_eq_ok_iff,
    fun branches found h => ⟨?_, fun branches' perm => Expr.evaluateWith_union_perm perm h⟩,
    fun e e' h => ?_⟩
  · obtain ⟨-, rfl⟩ := Expr.evaluateWith_eq_ok_iff.mp h
    rw [Expr.select_union]
    exact Handle.nodup_distinct _
  · exact (Expr.flattening_agrees.expr h).evaluateWith (Expr.flattening_named.expr h) .. |>.symm

theorem union_of_branches_overlapping :
    let root : Handle := .plain (Tree.placed ⟨{ name := "a" }, [.named "b", .named "c"]⟩)
    let b : Expr := .path false [.mk .child (.named "b") []]
    let all : Expr := .path false [.mk .child .any []]
    let filtered (e : Expr) : Expr := .path false [.mk .self .any [.nested e]]
    ((Expr.union [b, all]).evaluateFrom .builtins root root).value = .ok root.children ∧
      (root.children.map Handle.place).Nodup ∧
      (∃ found, ((Expr.union [all, b]).evaluateFrom .builtins root root).value = .ok found ∧
        (found.map Handle.place).Perm (root.children.map Handle.place)) ∧
      ((filtered (.union [b, all, b])).evaluateFrom .builtins root root).value =
        ((filtered (.union [b, .union [all, b]])).evaluateFrom .builtins root root).value := by
  intro root b all filtered
  obtain ⟨joined, same, flattened⟩ := union_of_branches .builtins root root
  have found : ((Expr.union [b, all]).evaluateFrom .builtins root root).value =
      .ok root.children :=
    (joined _ _).mpr ⟨[root.children.take 1, root.children], .cons rfl (.cons rfl .nil), rfl⟩
  obtain ⟨nodup, reordered⟩ := same _ _ found
  have inside : Expr.Rewrites .flattening (filtered (.union [b, .union [all, b]]))
      (filtered (.union [b, all, b])) :=
    .path false [] [] (.step .self .any [] [] (.nested (.rule (.intro [b] [all, b] []))))
  exact ⟨found, nodup, reordered _ (.swap all b []), flattened _ _ inside⟩

end TreeQuery
