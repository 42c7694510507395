import TreeQuery.Tree.Basic

namespace TreeQuery.Tree

variable {α σ : Type}

/-- Visits the pending nodes first to last; those below a visited node come before the others. -/
def visitAll (visitor : σ → Tree α → σ × Bool) (state : σ) : List (Tree α) → σ
  | [] => state
  | t :: pending =>
    match visitor state t with
    | (next, true) => visitAll visitor next (t.children ++ pending)
    | (next, false) => visitAll visitor next pending
termination_by pending => sizes pending
decreasing_by
  · simp [sizes, size_eq]
  · have := size_pos t
    simp only [sizes]
    omega

/-- Visits the nodes in preorder, without those below a node for which the visitor answers `false`. -/
def visit (visitor : σ → Tree α → σ × Bool) (state : σ) (t : Tree α) : σ :=
  visitAll visitor state [t]

/-- Revises one tree after the other with the state going through, as long as there is a result. -/
def reviseEach (one : σ → Tree α → Option (σ × Tree α)) (state : σ) :
    List (Tree α) → Option (σ × List (Tree α))
  | [] => some (state, [])
  | t :: ts => do
    let (state, t) ← one state t
    let (state, ts) ← reviseEach one state ts
    some (state, t :: ts)

/-- `revise` if it needs no more than `levels` levels. -/
def reviseWithin (visitor : σ → Tree α → σ × Tree α × Bool) :
    Nat → σ → Tree α → Option (σ × Tree α)
  | 0, _, _ => none
  | levels + 1, state, t =>
    match visitor state t with
    | (state, t, false) => some (state, t)
    | (state, t, true) => do
      let (state, children) ← reviseEach (reviseWithin visitor levels) state t.children
      some (state, ⟨t.label, children⟩)

/-- Replaces the nodes in preorder: the visitor answers with the new node and with whether to go on
to the new node's children. Nodes that the visitor adds are visited too. There is no result if it adds
more than `growth` levels below the deepest node that was there. -/
def revise (growth : Nat) (visitor : σ → Tree α → σ × Tree α × Bool) (state : σ) (t : Tree α) :
    Option (σ × Tree α) :=
  reviseWithin visitor (t.height + growth) state t

/-- Replaces the label of every node by what `f` makes of the node. This adds no levels, so there is
always a result. -/
def reviseLabels (f : Tree α → α) (t : Tree α) : Tree α :=
  ((revise 0 (fun (_ : Unit) t => ((), ⟨f t, t.children⟩, true)) () t).map Prod.snd).getD t

end TreeQuery.Tree
