import TreeQuery.Proofs.Tree.Order
import TreeQuery.Tree.Visit

namespace TreeQuery.Tree

variable {α β σ : Type}

/-- A call of a visitor: the state and the node it got, and its answer. -/
structure Visited (σ α β : Type) where
  state : σ
  node : Tree α
  answer : β

/-- The visitor that does the same and keeps a record of its calls. -/
def noting (visitor : σ → Tree α → σ × β) :
    σ × List (Visited σ α β) → Tree α → (σ × List (Visited σ α β)) × β :=
  fun (state, noted) t =>
    let (next, answer) := visitor state t
    ((next, noted ++ [⟨state, t, answer⟩]), answer)

/-- A visitor that only looks, among those that may change the nodes. -/
def unchanging (visitor : σ → Tree α → σ × Bool) : σ → Tree α → σ × Tree α × Bool :=
  fun state t => ((visitor state t).1, t, (visitor state t).2)

mutual
/-- The state after a visitor has gone through a tree in preorder. The children of a node come after it
if the visitor goes on. -/
def walk (visitor : σ → Tree α → σ × Bool) (state : σ) : Tree α → σ
  | ⟨label, children⟩ =>
    match visitor state ⟨label, children⟩ with
    | (next, true) => walkEach visitor next children
    | (next, false) => next
/-- The state after several trees. -/
def walkEach (visitor : σ → Tree α → σ × Bool) (state : σ) : List (Tree α) → σ
  | [] => state
  | t :: ts => walkEach visitor (walk visitor state t) ts
end

mutual
/-- The calls on the way through a tree. -/
def calls (visitor : σ → Tree α → σ × Bool) (state : σ) : Tree α → List (Visited σ α Bool)
  | ⟨label, children⟩ =>
    match visitor state ⟨label, children⟩ with
    | (next, true) => ⟨state, ⟨label, children⟩, true⟩ :: callsEach visitor next children
    | (_, false) => [⟨state, ⟨label, children⟩, false⟩]
/-- The calls on the way through several trees. -/
def callsEach (visitor : σ → Tree α → σ × Bool) (state : σ) :
    List (Tree α) → List (Visited σ α Bool)
  | [] => []
  | t :: ts => calls visitor state t ++ callsEach visitor (walk visitor state t) ts
end

section

variable (visitor : σ → Tree α → σ × Bool)

theorem walk_eq (state : σ) (t : Tree α) :
    walk visitor state t =
      if (visitor state t).2 then walkEach visitor (visitor state t).1 t.children
      else (visitor state t).1 := by
  obtain ⟨label, children⟩ := t
  rw [walk]
  rcases visitor state ⟨label, children⟩ with ⟨next, _ | _⟩ <;> rfl

theorem calls_eq (state : σ) (t : Tree α) :
    calls visitor state t = ⟨state, t, (visitor state t).2⟩ ::
      if (visitor state t).2 then callsEach visitor (visitor state t).1 t.children else [] := by
  obtain ⟨label, children⟩ := t
  rw [calls]
  rcases visitor state ⟨label, children⟩ with ⟨next, _ | _⟩ <;> rfl

theorem walkEach_append (state : σ) (ts us : List (Tree α)) :
    walkEach visitor state (ts ++ us) = walkEach visitor (walkEach visitor state ts) us := by
  induction ts generalizing state with
  | nil => rfl
  | cons t ts ih => rw [List.cons_append, walkEach, walkEach, ih]

/-- What waits on the stack is gone through from its top down. -/
theorem visitAll_eq (state : σ) (pending : List (Tree α)) :
    visitAll visitor state pending = walkEach visitor state pending := by
  induction state, pending using visitAll.induct visitor with
  | case1 state => rw [visitAll, walkEach]
  | case2 state t pending next goes ih =>
    rw [visitAll, goes, walkEach, walk_eq, goes]
    exact ih.trans (walkEach_append visitor next t.children pending)
  | case3 state t pending next stops ih =>
    rw [visitAll, stops, walkEach, walk_eq, stops]
    exact ih

theorem visit_eq (state : σ) (t : Tree α) : visit visitor state t = walk visitor state t := by
  rw [visit, visitAll_eq, walkEach, walkEach]

theorem reviseEach_unchanging {one : σ → Tree α → Option (σ × Tree α)} {ts : List (Tree α)}
    (each : ∀ t ∈ ts, ∀ state, one state t = some (walk visitor state t, t)) (state : σ) :
    reviseEach one state ts = some (walkEach visitor state ts, ts) := by
  induction ts generalizing state with
  | nil => rfl
  | cons t ts ih =>
    obtain ⟨first, others⟩ := List.forall_mem_cons.mp each
    rw [reviseEach, first, Option.bind_eq_bind, Option.bind_some]
    dsimp only
    rw [ih others]
    rfl

theorem reviseWithin_unchanging {levels : Nat} {t : Tree α} (enough : t.height ≤ levels) (state : σ) :
    reviseWithin (unchanging visitor) levels state t = some (walk visitor state t, t) := by
  induction levels generalizing t state with
  | zero =>
    rw [height_eq] at enough
    omega
  | succ levels ih =>
    rw [height_eq] at enough
    have below : ∀ c ∈ t.children, c.height ≤ levels := heights_le_iff.mp (by omega)
    have children := reviseEach_unchanging visitor fun c hc => ih (below c hc)
    rw [reviseWithin, unchanging, walk_eq]
    rcases visitor state t with ⟨next, _ | _⟩
    · rfl
    · dsimp only
      rw [children, if_pos rfl]
      cases t
      rfl

theorem revise_unchanging (growth : Nat) (state : σ) (t : Tree α) :
    revise growth (unchanging visitor) state t = some (walk visitor state t, t) := by
  rw [revise, reviseWithin_unchanging visitor (Nat.le_add_right _ _)]

mutual
theorem walk_noting : ∀ (t : Tree α) (state : σ) (noted : List (Visited σ α Bool)),
    walk (noting visitor) (state, noted) t =
      (walk visitor state t, noted ++ calls visitor state t)
  | ⟨label, children⟩, state, noted => by
    rw [walk_eq, walk_eq visitor, calls_eq, noting]
    rcases visitor state ⟨label, children⟩ with ⟨next, _ | _⟩
    · rfl
    · exact (walkEach_noting children next _).trans (by simp)
theorem walkEach_noting : ∀ (ts : List (Tree α)) (state : σ) (noted : List (Visited σ α Bool)),
    walkEach (noting visitor) (state, noted) ts =
      (walkEach visitor state ts, noted ++ callsEach visitor state ts)
  | [], state, noted => by simp [walkEach, callsEach]
  | t :: ts, state, noted => by
    rw [walkEach, walk_noting t, walkEach_noting ts, walkEach, callsEach, List.append_assoc]
end

end

end TreeQuery.Tree
