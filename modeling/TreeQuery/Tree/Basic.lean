namespace TreeQuery

/-- A finite ordered tree with labels of type `α`. -/
structure Tree (α : Type) where
  label : α
  children : List (Tree α)
  deriving Inhabited, Repr

namespace Tree

variable {α β : Type}

mutual
/-- The number of nodes. -/
def size : Tree α → Nat
  | ⟨_, children⟩ => 1 + sizes children
/-- The number of nodes of several trees together. -/
def sizes : List (Tree α) → Nat
  | [] => 0
  | t :: ts => t.size + sizes ts
end

mutual
/-- The number of levels. -/
def height : Tree α → Nat
  | ⟨_, children⟩ => 1 + heights children
/-- The number of levels of the highest of several trees. -/
def heights : List (Tree α) → Nat
  | [] => 0
  | t :: ts => max t.height (heights ts)
end

mutual
/-- All nodes, each before its children and these in order. -/
def preorder : Tree α → List (Tree α)
  | ⟨label, children⟩ => ⟨label, children⟩ :: preorders children
/-- The nodes of several trees, tree by tree. -/
def preorders : List (Tree α) → List (Tree α)
  | [] => []
  | t :: ts => t.preorder ++ preorders ts
end

mutual
/-- The tree of the same shape with every label changed. -/
def map (f : α → β) : Tree α → Tree β
  | ⟨label, children⟩ => ⟨f label, maps f children⟩
/-- Several trees with every label changed. -/
def maps (f : α → β) : List (Tree α) → List (Tree β)
  | [] => []
  | t :: ts => t.map f :: maps f ts
end

mutual
/-- Changes the node at this place in preorder. -/
def changeAt (change : Tree α → Tree α) : Nat → Tree α → Tree α
  | 0, t => change t
  | place + 1, ⟨label, children⟩ => ⟨label, changesAt change place children⟩
/-- Changes the node at this place in several trees taken one after the other. -/
def changesAt (change : Tree α → Tree α) : Nat → List (Tree α) → List (Tree α)
  | _, [] => []
  | place, t :: ts =>
    if place < t.size then changeAt change place t :: ts
    else t :: changesAt change (place - t.size) ts
end

/-- The trees whose nodes are given in preorder, each with its depth. -/
def ofOutline (rows : List (Nat × α)) : List (Tree α) :=
  (rows.foldr (fun (depth, label) forest =>
    let (below, others) := forest.span fun entry => depth < entry.1
    (depth, ⟨label, below.map (·.2)⟩) :: others) ([] : List (Nat × Tree α))).map (·.2)

@[simp] theorem sizes_append (ts us : List (Tree α)) : sizes (ts ++ us) = sizes ts + sizes us := by
  induction ts with
  | nil => simp [sizes]
  | cons t ts ih => simp [sizes, ih, Nat.add_assoc]

@[simp] theorem sizes_reverse (ts : List (Tree α)) : sizes ts.reverse = sizes ts := by
  induction ts with
  | nil => rfl
  | cons t ts ih => simp [sizes, ih, Nat.add_comm]

theorem size_pos (t : Tree α) : 0 < t.size := by
  cases t
  simp only [size]
  omega

theorem size_eq (t : Tree α) : t.size = 1 + sizes t.children := by
  cases t
  rfl

theorem height_eq (t : Tree α) : t.height = 1 + heights t.children := by
  cases t
  rfl

theorem heights_le_iff {ts : List (Tree α)} {n : Nat} :
    heights ts ≤ n ↔ ∀ t ∈ ts, t.height ≤ n := by
  induction ts with
  | nil => simp [heights]
  | cons t ts ih => rw [heights, Nat.max_le, ih, List.forall_mem_cons]

theorem preorder_eq (t : Tree α) : t.preorder = t :: preorders t.children := by
  cases t
  rfl

theorem preorders_eq_flatMap (ts : List (Tree α)) : preorders ts = ts.flatMap preorder := by
  induction ts with
  | nil => rfl
  | cons t ts ih => rw [preorders, ih, List.flatMap_cons]

theorem maps_eq_map (f : α → β) (ts : List (Tree α)) : maps f ts = ts.map (map f) := by
  induction ts with
  | nil => rfl
  | cons t ts ih => rw [maps, ih, List.map_cons]

mutual
theorem length_preorder : ∀ t : Tree α, t.preorder.length = t.size
  | ⟨_, children⟩ => by rw [preorder, List.length_cons, length_preorders children, size, Nat.add_comm]
theorem length_preorders : ∀ ts : List (Tree α), (preorders ts).length = sizes ts
  | [] => rfl
  | t :: ts => by rw [preorders, List.length_append, length_preorder t, length_preorders ts, sizes]
end

mutual
/-- Equality is decided label by label. -/
def decideEq [DecidableEq α] : (t u : Tree α) → Decidable (t = u)
  | ⟨a, ts⟩, ⟨b, us⟩ =>
    match decEq a b, decideEqs ts us with
    | isTrue h, isTrue hs => isTrue (by rw [h, hs])
    | isFalse h, _ => isFalse (by rintro ⟨⟩; exact h rfl)
    | _, isFalse h => isFalse (by rintro ⟨⟩; exact h rfl)
/-- Equality of lists of trees, tree by tree. -/
def decideEqs [DecidableEq α] : (ts us : List (Tree α)) → Decidable (ts = us)
  | [], [] => isTrue rfl
  | _ :: _, [] | [], _ :: _ => isFalse nofun
  | t :: ts, u :: us =>
    match decideEq t u, decideEqs ts us with
    | isTrue h, isTrue hs => isTrue (by rw [h, hs])
    | isFalse h, _ => isFalse (by rintro ⟨⟩; exact h rfl)
    | _, isFalse h => isFalse (by rintro ⟨⟩; exact h rfl)
end

instance [DecidableEq α] : DecidableEq (Tree α) := decideEq

end Tree

end TreeQuery
