import Mathlib.Logic.Relation
import TreeQuery.Proofs.Tree.Below

namespace TreeQuery

open TreeQuery.Tree

namespace ParentIndex

variable {parents : Std.TreeMap Nat (Tree Placed)} {pending : List (Tree Placed)} {place : Nat}
  {m n top : Tree Placed}

theorem getElem?_note : (note parents m)[place]? =
    if place ∈ m.children.map Tree.place then some m else parents[place]? := by
  unfold note
  induction m.children generalizing parents with
  | nil => simp
  | cons c cs ih =>
    rw [List.foldl_cons, ih, Std.TreeMap.getElem?_insert, List.map_cons]
    by_cases here : c.place = place
    · simp [here]
    · have other : ¬ place = c.place := fun same => here same.symm
      simp [here, other]

theorem isSome_note (known : parents[place]?.isSome) : (note parents m)[place]?.isSome := by
  rw [getElem?_note]
  split
  · rfl
  · exact known

/-- Of the nodes still to come one is taken up, and those below it stay to come. -/
theorem mem_preorders_cons_iff : m ∈ preorders (n :: pending) ↔
    m = n ∨ m ∈ preorders (n.children.reverse ++ pending) := by
  rw [preorders, List.mem_append, mem_preorder_iff, or_assoc]
  simp [mem_preorders_iff, or_and_right, exists_or]

/-- What is noted and what is pending on the way through the nodes below `top`. -/
structure Noting (top : Tree Placed) (parents : Std.TreeMap Nat (Tree Placed))
    (pending : List (Tree Placed)) : Prop where
  /-- Only nodes at `top` or below are waiting. -/
  inside : ∀ n ∈ pending, n ∈ top.preorder
  /-- A noted parent has a child at the place it is noted for. -/
  sound : ∀ place m, parents[place]? = some m → m ∈ top.preorder ∧ ∃ c ∈ m.children, c.place = place
  /-- A node is still to come, or all its children are noted. -/
  complete : ∀ m ∈ top.preorder, m ∈ preorders pending ∨ ∀ c ∈ m.children, parents[c.place]?.isSome

namespace Noting

theorem start (top : Tree Placed) : Noting top {} [top] where
  inside n hn := List.mem_singleton.mp hn ▸ top.self_mem_preorder
  sound place m noted := by simp at noted
  complete m hm := .inl (by simpa [preorders] using hm)

/-- The first pending node is noted for its children, which then wait before the others. -/
theorem next (noting : Noting top parents (n :: pending)) :
    Noting top (note parents n) (n.children.reverse ++ pending) := by
  have here : n ∈ top.preorder := noting.inside n List.mem_cons_self
  refine { inside := ?inside, sound := ?sound, complete := ?complete }
  case inside =>
    intro k hk
    rcases List.mem_append.mp hk with child | later
    · exact child_mem here (List.mem_reverse.mp child)
    · exact noting.inside k (List.mem_cons_of_mem n later)
  case sound =>
    intro place m noted
    rw [getElem?_note] at noted
    split at noted
    · rename_i child
      obtain rfl := Option.some.inj noted
      exact ⟨here, List.mem_map.mp child⟩
    · exact noting.sound place m noted
  case complete =>
    intro m hm
    rcases noting.complete m hm with toCome | known
    · rcases mem_preorders_cons_iff.mp toCome with rfl | later
      · right
        intro c child
        rw [getElem?_note, if_pos (List.mem_map_of_mem child)]
        rfl
      · exact .inl later
    · right
      intro c child
      exact isSome_note (known c child)

theorem run (noting : Noting top parents pending) : Noting top (noteAll parents pending) [] := by
  induction parents, pending using noteAll.induct with
  | case1 parents =>
    rw [noteAll]
    exact noting
  | case2 parents n pending ih =>
    -- The recursion keeps track of whose children they are, and the induction shows it.
    simp only [List.unattach_reverse, List.unattach_attach] at ih
    rw [noteAll]
    exact ih noting.next

end Noting

/-- An index of a part of an ordered tree knows the parents of the nodes below the part's top. -/
theorem parent?_eq_some_iff {t : Tree Placed} (ordered : t.Ordered) (ht : top ∈ t.preorder)
    (hn : n ∈ t.preorder) :
    (build top).parent? n = some m ↔ m ∈ top.preorder ∧ n ∈ m.children := by
  have noting : Noting top (build top).parents [] := (Noting.start top).run
  have sound : ∀ k, (build top).parent? n = some k → k ∈ top.preorder ∧ n ∈ k.children := by
    intro k found
    obtain ⟨hk, c, child, same⟩ := noting.sound n.place k found
    obtain rfl := ordered.eq_of_place (child_mem (mem_preorder_trans ht hk) child) hn same
    exact ⟨hk, child⟩
  constructor
  · exact sound m
  · intro h
    obtain ⟨hm, child⟩ := h
    rcases noting.complete m hm with toCome | known
    · cases toCome
    · obtain ⟨k, found⟩ := Option.isSome_iff_exists.mp (known n child)
      obtain ⟨hk, child'⟩ := sound k found
      obtain rfl := (ordered.part ht).parent_unique hm hk child child' rfl
      exact found

end ParentIndex

namespace Handle

open ParentIndex

/-- One step from a handle: to a child, or to the parent it knows. -/
def Moves (h k : Handle) : Prop := k ∈ h.children ∨ h.parent? = some k

/-- A handle on a node of `t` that looks for its parent in the index of the part at `top`. -/
structure IndexedAt (t top : Tree Placed) (h : Handle) : Prop where
  node : h.node ∈ t.preorder
  index : h.index = some (build top)

namespace IndexedAt

variable {t top : Tree Placed} {h k : Handle}

theorem parent?_eq (indexed : h.IndexedAt t top) :
    h.parent? = ((build top).parent? h.node).map (build top).handle := by
  obtain ⟨n, i⟩ := h
  obtain rfl : i = some (build top) := indexed.index
  rfl

/-- No step goes out of the tree or to another index. -/
theorem step (ordered : t.Ordered) (ht : top ∈ t.preorder) (indexed : h.IndexedAt t top)
    (moves : h.Moves k) : k.IndexedAt t top := by
  rcases moves with down | up
  · obtain ⟨c, child, rfl⟩ := List.mem_map.mp down
    exact ⟨child_mem indexed.node child, indexed.index⟩
  · rw [indexed.parent?_eq] at up
    obtain ⟨m, known, rfl⟩ := Option.map_eq_some_iff.mp up
    obtain ⟨hm, -⟩ := (parent?_eq_some_iff ordered ht indexed.node).mp known
    exact ⟨mem_preorder_trans ht hm, rfl⟩

theorem steps (ordered : t.Ordered) (ht : top ∈ t.preorder) (indexed : h.IndexedAt t top)
    (reached : Relation.ReflTransGen Moves h k) : k.IndexedAt t top := by
  induction reached with
  | refl => exact indexed
  | tail _ moves ih => exact ih.step ordered ht moves

end IndexedAt

end Handle

namespace ParentIndex

/-- Take the index of the part of a tree at `top`, a handle that it gives on any node of the tree, and
whatever handle is reached from there through children and parents. If this one is below `top` it
knows the one node that it is a child of, as a handle with the same index; if it is `top` itself or
outside of the part it knows no parent. -/
theorem build_knows_parents_below (t : Tree Label) {top n : Tree Placed}
    (ht : top ∈ t.placed.preorder) (hn : n ∈ t.placed.preorder) {h : Handle}
    (reached : Relation.ReflTransGen Handle.Moves ((build top).handle n) h) :
    (h.node ∈ top.preorder ∧ h.node ≠ top → ∃ parent ∈ t.placed.preorder,
      h.node ∈ parent.children ∧ (∀ m ∈ t.placed.preorder, h.node ∈ m.children → m = parent) ∧
        h.parent? = some ((build top).handle parent)) ∧
    (h.node ∉ top.preorder ∨ h.node = top → h.parent? = none) := by
  have ordered := ordered_placed t
  have part := ordered.part ht
  have given : ((build top).handle n).IndexedAt t.placed top := ⟨hn, rfl⟩
  have indexed := given.steps ordered ht reached
  rw [indexed.parent?_eq]
  constructor
  · intro below
    obtain ⟨m, hm, child⟩ := List.mem_flatMap.mp (part.mem_below_iff.mpr below)
    have known := (parent?_eq_some_iff ordered ht indexed.node).mpr ⟨hm, child⟩
    have hm' := mem_preorder_trans ht hm
    refine ⟨m, hm', child, fun k hk child' => ordered.parent_unique hk hm' child' child rfl, ?_⟩
    rw [known]
    rfl
  · intro elsewhere
    have unknown : (build top).parent? h.node = none := by
      apply Option.eq_none_iff_forall_ne_some.mpr
      intro m known
      have noted := (parent?_eq_some_iff ordered ht indexed.node).mp known
      obtain ⟨inside, other⟩ := part.mem_below_iff.mp (List.mem_flatMap.mpr ⟨m, noted⟩)
      exact elsewhere.elim (· inside) other
    rw [unknown]
    rfl

/-- Two branches look the same and only the second is indexed. -/
theorem build_knows_parents_below_second_branch :
    let x : Tree Label := .named "x"
    let b : Tree Label := ⟨{ name := "b" }, [x]⟩
    let t : Tree Label := ⟨{ name := "a" }, [b, b]⟩
    let top := b.placedFrom 3
    let index := build top
    top ∈ t.placed.preorder ∧ (index.handle (x.placedFrom 4)).parent? = some (index.handle top) ∧
      (index.handle (x.placedFrom 2)).parent? = none := by
  intro x b t top index
  have ht : top ∈ t.placed.preorder := by decide
  have branch : (index.handle t.placed).Moves (index.handle top) :=
    .inl (List.mem_map_of_mem (by decide))
  have leaf : (index.handle top).Moves (index.handle (x.placedFrom 4)) :=
    .inl (List.mem_map_of_mem (by decide))
  obtain ⟨below, -⟩ := build_knows_parents_below t ht t.placed.self_mem_preorder
    (.tail (.single branch) leaf)
  obtain ⟨-, elsewhere⟩ := build_knows_parents_below t ht (n := x.placedFrom 2) (by decide) .refl
  obtain ⟨parent, -, -, only, known⟩ := below ⟨by decide, by decide⟩
  rw [← only top ht (by decide)] at known
  exact ⟨ht, known, elsewhere (.inl (by decide))⟩

end ParentIndex

end TreeQuery
