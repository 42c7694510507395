import TreeQuery.Proofs.Tree.Order
import TreeQuery.Tree.Visit

namespace TreeQuery.Tree

variable {α : Type}

mutual
/-- The tree with every label replaced by what `f` makes of its node. -/
def relabel (f : Tree α → α) : Tree α → Tree α
  | ⟨label, children⟩ => ⟨f ⟨label, children⟩, relabels f children⟩
/-- Several trees with every label replaced. -/
def relabels (f : Tree α → α) : List (Tree α) → List (Tree α)
  | [] => []
  | t :: ts => relabel f t :: relabels f ts
end

theorem eq_of_parts {t u : Tree α} (label : t.label = u.label) (children : t.children = u.children) :
    t = u := by
  obtain ⟨a, ts⟩ := t
  obtain ⟨b, us⟩ := u
  obtain rfl : a = b := label
  obtain rfl : ts = us := children
  rfl

section

variable (f : Tree α → α)

theorem relabels_eq_map (ts : List (Tree α)) : relabels f ts = ts.map (relabel f) := by
  induction ts with
  | nil => rfl
  | cons t ts ih => rw [relabels, ih, List.map_cons]

@[simp] theorem label_relabel (t : Tree α) : (t.relabel f).label = f t := by
  cases t
  rfl

@[simp] theorem children_relabel (t : Tree α) :
    (t.relabel f).children = t.children.map (relabel f) := by
  cases t
  exact relabels_eq_map f _

theorem preorder_relabel (t : Tree α) : (t.relabel f).preorder = t.preorder.map (relabel f) :=
  preorder_eq_map (children_relabel f) t

theorem height_relabel_le (t : Tree α) : (t.relabel f).height ≤ t.height := by
  induction t using byChildren with
  | step t ih =>
    have low := heights_le_iff.mp (Nat.le_refl (heights t.children))
    have below : heights (t.relabel f).children ≤ heights t.children := by
      rw [children_relabel]
      exact heights_le_iff.mpr (List.forall_mem_map.mpr fun c hc =>
        Nat.le_trans (ih c hc) (low c hc))
    rw [height_eq, height_eq t]
    omega

/-- Two changes of labels one after the other are one; the second sees nodes as the first left them. -/
theorem relabel_relabel (g : Tree α → α) (t : Tree α) :
    (t.relabel f).relabel g = t.relabel fun n => g (n.relabel f) := by
  induction t using byChildren with
  | step t ih =>
    refine eq_of_parts ?_ ?_
    · simp
    · rw [children_relabel, children_relabel, children_relabel, List.map_map]
      exact List.map_congr_left ih

theorem reviseEach_eq {one : Unit → Tree α → Option (Unit × Tree α)} {g : Tree α → Tree α}
    {ts : List (Tree α)} (each : ∀ t ∈ ts, one () t = some ((), g t)) :
    reviseEach one () ts = some ((), ts.map g) := by
  induction ts with
  | nil => rfl
  | cons t ts ih =>
    obtain ⟨first, others⟩ := List.forall_mem_cons.mp each
    rw [reviseEach, first, Option.bind_eq_bind, Option.bind_some]
    dsimp only
    rw [ih others]
    rfl

theorem reviseWithin_relabel {levels : Nat} {t : Tree α} (enough : t.height ≤ levels) :
    reviseWithin (fun (_ : Unit) t => ((), ⟨f t, t.children⟩, true)) levels () t =
      some ((), t.relabel f) := by
  induction levels generalizing t with
  | zero =>
    rw [height_eq] at enough
    omega
  | succ levels ih =>
    rw [height_eq] at enough
    have below : ∀ c ∈ t.children, c.height ≤ levels := heights_le_iff.mp (by omega)
    rw [reviseWithin]
    dsimp only
    rw [reviseEach_eq fun c hc => ih (below c hc)]
    cases t
    rw [relabel, relabels_eq_map]
    rfl

/-- A visitor that changes the label and goes on reaches every node as it was. -/
theorem reviseLabels_eq (t : Tree α) : t.reviseLabels f = t.relabel f := by
  rw [reviseLabels, revise, reviseWithin_relabel f (Nat.le_add_right _ _)]
  rfl

end

end TreeQuery.Tree
