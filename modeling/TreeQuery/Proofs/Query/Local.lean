import TreeQuery.Proofs.Query.Builtin
import TreeQuery.Proofs.Query.Reach
import TreeQuery.Proofs.Query.Transfer
import TreeQuery.Proofs.Tree.Shift

namespace TreeQuery

open TreeQuery.Tree

/-- Inside predicates, where the root is the candidate, no axis asks for a parent or a sibling. -/
def confined : Criteria where
  step inside s := !inside || s.axis.isLocal

namespace Handle

variable {h k : Handle} (same : k.node.label.toLabel = h.node.label.toLabel)

include same

theorem name_congr : k.name = h.name := congrArg Label.name same

theorem value?_congr : k.value? = h.value? := congrArg Label.value same

theorem property?_congr (key : String) : k.property? key = h.property? key := by
  have own : k.attribute? key = h.attribute? key :=
    congrArg (fun label => label.attributes.get? key) same
  rw [property?, property?, value?_congr same, name_congr same, own]

theorem isTerminal_congr (leaf : k.node.children.isEmpty = h.node.children.isEmpty) :
    k.isTerminal = h.isTerminal := by
  rw [isTerminal, isTerminal, value?_congr same, children_eq, children_eq, List.isEmpty_map,
    List.isEmpty_map, leaf]

end Handle

/-- Handles without an index on a root and on a node under it. -/
structure PlainUnder (t : Tree Placed) (root h : Handle) : Prop where
  root_index : root.index = none
  index : h.index = none
  root_mem : root.node ∈ t.preorder
  mem : h.node ∈ root.node.preorder

namespace PlainUnder

variable {t : Tree Placed} {root h : Handle}

theorem mem_tree (p : PlainUnder t root h) : h.node ∈ t.preorder :=
  mem_preorder_trans p.root_mem p.mem

theorem enter (p : PlainUnder t root h) : PlainUnder t h h :=
  ⟨p.index, p.index, p.mem_tree, h.node.self_mem_preorder⟩

theorem follow_eq (p : PlainUnder t root h) (ordered : t.Ordered) (axis : Axis) :
    axis.follow h root = (axis.reach h.node root.node).map Handle.plain := by
  obtain ⟨n, i⟩ := h
  obtain ⟨r, j⟩ := root
  obtain rfl : i = none := p.index
  obtain rfl : j = none := p.root_index
  have sound := (Handle.within_plain p.mem_tree).sound ordered
  exact axis.follow_eq ordered p.root_mem p.mem sound (.inl rfl)

theorem follow (p : PlainUnder t root h) (ordered : t.Ordered) (axis : Axis) :
    ∀ k ∈ axis.follow h root, PlainUnder t root k := by
  intro k hk
  rw [p.follow_eq ordered axis] at hk
  obtain ⟨n, hn, rfl⟩ := List.mem_map.mp hk
  exact ⟨p.root_index, rfl, p.root_mem, axis.reach_mem p.mem n hn⟩

end PlainUnder

theorem plainUnder_self {t c : Tree Placed} (hc : c ∈ t.preorder) :
    PlainUnder t (.plain c) (.plain c) := ⟨rfl, rfl, hc, c.self_mem_preorder⟩

/-- The same node, with the index of the whole tree. -/
def Handle.indexed (t : Tree Placed) (h : Handle) : Handle := (ParentIndex.build t).handle h.node

/-- An index of the whole tree changes no answer of a confined expression. -/
def indexTransfer (t : Tree Placed) (ordered : t.Ordered) (allowed : Bool) :
    Transfer confined (Registry.standard allowed).functions
      (Registry.standard allowed).functions where
  move := Handle.indexed t
  scope inside root h := PlainUnder t root h ∧ (inside = false → root.node = t)
  place _ _ := Iff.rfl
  name _ := rfl
  property _ _ _ _ := rfl
  follow inside root h axis test ps own start := by
    obtain ⟨p, top⟩ := start
    refine ⟨?_, fun k hk => ⟨p.follow ordered axis k hk, top⟩⟩
    have scope : some (ParentIndex.build t) = none ∨ root.node = t ∨ axis.isLocal := by
      right
      simp only [confined, Bool.or_eq_true, Bool.not_eq_true'] at own
      rcases own with outside | isLocal
      · exact .inl (top outside)
      · exact .inr isLocal
    have indexed := axis.follow_eq ordered p.root_mem p.mem
      ((Handle.within_build p.mem_tree t.self_mem_preorder).sound ordered) scope
    rw [p.follow_eq ordered axis, List.map_map]
    exact indexed
  enter inside root h start := by
    refine ⟨start.1.enter, fun outside => ?_⟩
    cases outside
  known _ _ := rfl
  answer _ root h candidates name _ _ _ :=
    Registry.answer_standard (Handle.indexed t) (fun _ _ => Iff.rfl)
      (fun _ => Handle.isTerminal_congr rfl rfl) allowed name h candidates root _

section

variable (count : Nat) (n r : Tree Placed)

theorem parentIn?_shift :
    (n.shift count).parentIn? (r.shift count) = (n.parentIn? r).map (shift count) := by
  rw [parentIn?, parentIn?, place_shift, wayTo_shift, Option.bind_map, Option.map_bind]
  congr 1
  funext path
  rw [Function.comp_apply, ← List.map_dropLast, List.getLast?_map]
  rfl

theorem differ_shift :
    (fun k : Tree Placed => k.place != (n.shift count).place) ∘ shift count =
      fun k => k.place != n.place := by
  funext k
  simp [bne]

theorem nextSiblingIn?_shift :
    (n.shift count).nextSiblingIn? (r.shift count) = (n.nextSiblingIn? r).map (shift count) := by
  rw [nextSiblingIn?, nextSiblingIn?, parentIn?_shift]
  cases n.parentIn? r with
  | none => rfl
  | some m =>
    simp only [Option.map_some, Option.bind_some, children_shift, List.dropWhile_map, differ_shift,
      ← List.map_tail, List.head?_map]

theorem previousSiblingIn?_shift :
    (n.shift count).previousSiblingIn? (r.shift count) =
      (n.previousSiblingIn? r).map (shift count) := by
  rw [previousSiblingIn?, previousSiblingIn?, parentIn?_shift]
  cases n.parentIn? r with
  | none => rfl
  | some m =>
    simp only [Option.map_some, Option.bind_some, children_shift, List.takeWhile_map, differ_shift,
      List.getLast?_map]

theorem below_shift :
    (n.shift count).preorder.flatMap Tree.children =
      (n.preorder.flatMap Tree.children).map (shift count) := by
  rw [preorder_shift, List.flatMap_map, List.map_flatMap]
  simp only [children_shift]

/-- Axes follow a tree to where its places are moved. -/
theorem Axis.reach_shift (axis : Axis) :
    axis.reach (n.shift count) (r.shift count) = (axis.reach n r).map (shift count) := by
  cases axis with
  | child => exact children_shift count n
  | descendant => exact below_shift count n
  | descendantOrSelf => rw [reach, reach, below_shift, List.map_append]; rfl
  | self => rfl
  | parent => rw [reach, reach, parentIn?_shift, Option.toList_map]
  | ancestor =>
    rw [reach, reach, place_shift, wayTo_shift]
    cases wayTo n.place r with
    | none => rfl
    | some path => exact List.map_dropLast.symm
  | ancestorOrSelf =>
    rw [reach, reach, place_shift, wayTo_shift]
    cases wayTo n.place r <;> rfl
  | followingSibling => rw [reach, reach, nextSiblingIn?_shift, Option.toList_map]
  | precedingSibling => rw [reach, reach, previousSiblingIn?_shift, Option.toList_map]

end

/-- The node in the tree with its places moved up. -/
def Handle.shifted (count : Nat) (h : Handle) : Handle := .plain (h.node.shift count)

theorem isEmpty_children_shift (count : Nat) (t : Tree Placed) :
    (t.shift count).children.isEmpty = t.children.isEmpty := by
  rw [children_shift, List.isEmpty_map]

theorem Handle.place_shifted (count : Nat) (h : Handle) :
    (h.shifted count).place = h.place + count :=
  place_shift count h.node

theorem Handle.place_shifted_iff (count : Nat) (h k : Handle) :
    (h.shifted count).place = (k.shifted count).place ↔ h.place = k.place := by
  rw [place_shifted, place_shifted, Nat.add_right_cancel_iff]

/-- Answers move with the places of a tree. -/
def shiftTransfer (t : Tree Placed) (ordered : t.Ordered) (count : Nat) (allowed : Bool) :
    Transfer {} (Registry.standard allowed).functions (Registry.standard allowed).functions where
  move := Handle.shifted count
  scope _ root h := PlainUnder t root h
  place := Handle.place_shifted_iff count
  name h := Handle.name_congr (toLabel_shift count h.node)
  property h name value _ := Handle.property?_congr (toLabel_shift count h.node) name
  follow inside root h axis test ps own start := by
    refine ⟨?_, start.follow ordered axis⟩
    have moved : PlainUnder (t.shift count) (root.shifted count) (h.shifted count) :=
      ⟨rfl, rfl, mem_preorder_shift count start.root_mem, mem_preorder_shift count start.mem⟩
    rw [moved.follow_eq (ordered.shift count), start.follow_eq ordered]
    change (axis.reach (h.node.shift count) (root.node.shift count)).map _ = _
    rw [axis.reach_shift, List.map_map, List.map_map]
    rfl
  enter inside root h start := start.enter
  known _ _ := rfl
  answer _ root h candidates name _ _ _ :=
    Registry.answer_standard (Handle.shifted count) (Handle.place_shifted_iff count)
      (fun h => Handle.isTerminal_congr (toLabel_shift count h.node) (isEmpty_children_shift ..))
      allowed name h candidates root _

theorem meets_default (e : Expr) (inside : Bool) : e.meets {} inside := by
  have all : PartsInduction (fun e => ∀ inside, e.meets {} inside)
      (fun s => ∀ inside, s.meets {} inside) (fun p => ∀ inside, p.meets {} inside) := by
    refine ⟨?_, ?_, ?_, fun _ _ _ => rfl, fun _ _ => rfl, ?_, fun _ _ => rfl, ?_⟩
    · intro absolute steps ih inside
      exact Expr.meets_path .. |>.mpr ⟨rfl, fun s hs => ih s hs inside⟩
    · intro branches ih inside
      exact Expr.meets_union .. |>.mpr ⟨rfl, fun e he => ih e he inside⟩
    · intro axis test ps ih inside
      exact Step.meets_mk .. |>.mpr ⟨rfl, fun p hp => ih p hp inside⟩
    · intro e ih inside
      exact Predicate.meets_nested .. |>.mpr ⟨rfl, ih true⟩
    · intro p q ihp ihq inside
      exact Predicate.meets_either .. |>.mpr ⟨rfl, ihp inside, ihq inside⟩
  exact all.expr e inside

section

variable {t : Tree Label} {c : Tree Placed} (hc : c ∈ t.placed.preorder) (e : Expr)

include hc

theorem shifted_plain : Handle.shifted c.place (.plain c.unplaced.placed) = .plain c :=
  congrArg Handle.plain (shift_placed_unplaced hc)

/-- From a handle that knows no parents, the part below a node is queried like a copy of it. -/
theorem evaluate_part :
    (e.evaluate .builtins (.plain c)).value =
      (e.evaluate .builtins (.plain c.unplaced.placed)).value.map
        (List.map (Handle.shifted c.place)) := by
  have start := plainUnder_self c.unplaced.placed.self_mem_preorder
  rw [← shifted_plain hc]
  exact (shiftTransfer _ (ordered_placed c.unplaced) c.place true).evaluateWith
    (meets_default e false) start

theorem nested_part (candidates : List Handle) (root : Handle) :
    (Predicate.holds Registry.builtins.functions (.nested e) (.plain c) candidates root).value =
      (Predicate.holds Registry.builtins.functions (.nested e) (.plain c.unplaced.placed) []
        (.plain c.unplaced.placed)).value := by
  have start := plainUnder_self c.unplaced.placed.self_mem_preorder
  rw [← shifted_plain hc]
  exact (shiftTransfer _ (ordered_placed c.unplaced) c.place true).holds_nested
    (meets_default e true) start [] candidates _ root

theorem indexed_scope :
    PlainUnder t.placed (.plain c) (.plain c) ∧ (true = false → c = t.placed) :=
  ⟨plainUnder_self hc, fun outside => by cases outside⟩

/-- The index of the whole tree changes nothing where no axis asks for parents or siblings. -/
theorem evaluate_indexed (isLocal : e.meets confined true) :
    (e.evaluate .builtins ((ParentIndex.build t.placed).handle c)).value =
      (e.evaluate .builtins (.plain c)).value.map (List.map (Handle.indexed t.placed)) :=
  (indexTransfer _ (ordered_placed t) true).evaluateWith isLocal (indexed_scope hc)

theorem nested_indexed (isLocal : e.meets confined true) (candidates : List Handle)
    (root : Handle) :
    (Predicate.holds Registry.builtins.functions (.nested e)
        ((ParentIndex.build t.placed).handle c) candidates root).value =
      (Predicate.holds Registry.builtins.functions (.nested e) (.plain c) [] root).value :=
  (indexTransfer _ (ordered_placed t) true).holds_nested isLocal (indexed_scope hc) [] candidates
    root root

end

/-- The part of a tree below a node is queried like a copy of it that stands alone, from a handle
that knows no parents by every expression, and from one that knows them by those that ask for
neither parents nor siblings. With the same exception a nested expression sees nothing around its
candidate. -/
theorem evaluation_local (t : Tree Label) (c : Tree Placed) (hc : c ∈ t.placed.preorder) :
    c.unplaced.placed.shift c.place = c ∧
    (∀ e : Expr, (e.evaluate .builtins (.plain c)).value =
      (e.evaluate .builtins (.plain c.unplaced.placed)).value.map
        (List.map fun h => .plain (h.node.shift c.place))) ∧
    (∀ e : Expr, e.meets confined true →
      (e.evaluate .builtins ((ParentIndex.build t.placed).handle c)).value =
        (e.evaluate .builtins (.plain c.unplaced.placed)).value.map
          (List.map fun h => (ParentIndex.build t.placed).handle (h.node.shift c.place))) ∧
    (∀ (e : Expr) (candidates : List Handle) (root : Handle),
      (Predicate.holds Registry.builtins.functions (.nested e) (.plain c) candidates root).value =
        (Predicate.holds Registry.builtins.functions (.nested e) (.plain c.unplaced.placed) []
          (.plain c.unplaced.placed)).value) ∧
    (∀ e : Expr, e.meets confined true → ∀ (candidates : List Handle) (root : Handle),
      (Predicate.holds Registry.builtins.functions (.nested e)
          ((ParentIndex.build t.placed).handle c) candidates root).value =
        (Predicate.holds Registry.builtins.functions (.nested e) (.plain c.unplaced.placed) []
          (.plain c.unplaced.placed)).value) := by
  refine ⟨shift_placed_unplaced hc, evaluate_part hc, ?_, nested_part hc, ?_⟩
  · intro e isLocal
    rw [evaluate_indexed hc e isLocal, evaluate_part hc e]
    cases (e.evaluate .builtins (.plain c.unplaced.placed)).value with
    | error error => rfl
    | ok matched =>
      change Except.ok (List.map _ (List.map _ matched)) = Except.ok (List.map _ matched)
      rw [List.map_map]
      rfl
  · intro e isLocal candidates root
    rw [nested_indexed hc e isLocal candidates root, nested_part hc e [] root]

theorem evaluation_local_second_child :
    let part : Tree Label := ⟨{ name := "c" }, [.named "d"]⟩
    let t : Tree Label := ⟨{ name := "a" }, [.named "b", part]⟩
    let c : Tree Placed := part.placedFrom 2
    c ∈ t.placed.preorder ∧ c.unplaced.placed.shift c.place = c ∧
      ∀ e : Expr, (e.evaluate .builtins (.plain c)).value =
        (e.evaluate .builtins (.plain c.unplaced.placed)).value.map
          (List.map fun h => .plain (h.node.shift c.place)) := by
  intro part t c
  have hc : c ∈ t.placed.preorder := by decide
  obtain ⟨copy, plain, -⟩ := evaluation_local t c hc
  exact ⟨hc, copy, plain⟩

end TreeQuery
