import TreeQuery.Proofs.Query.Builtin
import TreeQuery.Proofs.Query.Candidates

namespace TreeQuery

open TreeQuery.Tree

/-- The candidate at a position, counted from 1. -/
def Handle.atPosition? (candidates : List Handle) : Nat → Option Handle
  | 0 => none
  | index + 1 => candidates[index]?

section

variable {h c : Handle} {candidates : List Handle} {number other : Nat}

namespace Handle

theorem atPosition?_length (candidates : List Handle) :
    atPosition? candidates candidates.length = candidates.getLast? := by
  rw [List.getLast?_eq_getElem?]
  cases candidates with
  | nil => rfl
  | cons k more => rfl

theorem mem_of_atPosition? (found : atPosition? candidates number = some c) : c ∈ candidates := by
  cases number with
  | zero => cases found
  | succ index => exact List.mem_of_getElem? found

theorem atPosition?_eq_none_iff :
    atPosition? candidates number = none ↔ number = 0 ∨ candidates.length < number := by
  cases number with
  | zero => simp [atPosition?]
  | succ index =>
    rw [atPosition?, List.getElem?_eq_none_iff]
    omega

end Handle

theorem isAtPosition_zero_iff :
    isAtPosition 0 h candidates = true ↔ h.place ∉ candidates.map Handle.place := by
  rw [isAtPosition, if_pos rfl, beq_iff_eq, List.findIdx?_eq_none_iff, List.mem_map]
  constructor
  · rintro apart ⟨k, hk, same⟩
    exact Bool.eq_false_iff.mp (apart k hk) (Handle.beq_iff.mpr same)
  · intro apart k hk
    exact Bool.eq_false_iff.mpr fun same => apart ⟨k, hk, Handle.beq_iff.mp same⟩

/-- In a list without repetitions the first handle on a node is the only one. -/
theorem isAtPosition_succ_iff (nodup : (candidates.map Handle.place).Nodup) {index : Nat} :
    isAtPosition (index + 1) h candidates = true ↔
      ∃ k, candidates[index]? = some k ∧ k.place = h.place := by
  rw [isAtPosition, if_neg index.succ_ne_zero, beq_iff_eq, Nat.add_sub_cancel,
    List.findIdx?_eq_some_iff_getElem]
  constructor
  · rintro ⟨inside, here, -⟩
    exact ⟨_, List.getElem?_eq_getElem inside, Handle.beq_iff.mp here⟩
  · rintro ⟨k, found, same⟩
    obtain ⟨inside, rfl⟩ := List.getElem?_eq_some_iff.mp found
    refine ⟨inside, Handle.beq_iff.mpr same, fun earlier before again => ?_⟩
    have apart := List.pairwise_iff_getElem.mp (List.pairwise_map.mp nodup)
    exact apart earlier index _ inside before ((Handle.beq_iff.mp again).trans same.symm)

/-- A node has one position at most, whether it is among the candidates or not. -/
theorem isAtPosition_unique (here : isAtPosition number h candidates = true)
    (there : isAtPosition other h candidates = true) : number = other := by
  rw [isAtPosition, beq_iff_eq] at here there
  have same := here.symm.trans there
  cases number with
  | zero =>
    cases other with
    | zero => rfl
    | succ index => cases same
  | succ index =>
    cases other with
    | zero => cases same
    | succ index => simpa using same

/-- Every node has a position. -/
theorem exists_isAtPosition (h : Handle) (candidates : List Handle) :
    ∃ number, isAtPosition number h candidates = true := by
  cases found : candidates.findIdx? (· == h) with
  | none => exact ⟨0, by rw [isAtPosition, found]; rfl⟩
  | some index => exact ⟨index + 1, by rw [isAtPosition, found]; simp⟩

/-- A candidate is at a position just when it is the candidate there. -/
theorem isAtPosition_iff_of_mem (nodup : (candidates.map Handle.place).Nodup)
    (hc : c ∈ candidates) :
    isAtPosition number c candidates = true ↔ Handle.atPosition? candidates number = some c := by
  cases number with
  | zero => simpa [isAtPosition_zero_iff, Handle.atPosition?] using ⟨c, hc, rfl⟩
  | succ index =>
    rw [isAtPosition_succ_iff nodup, Handle.atPosition?]
    constructor
    · rintro ⟨k, found, same⟩
      rwa [List.inj_on_of_nodup_map nodup (List.mem_of_getElem? found) hc same] at found
    · exact fun found => ⟨c, found, rfl⟩

theorem isLast_iff_of_mem (nodup : (candidates.map Handle.place).Nodup) (hc : c ∈ candidates) :
    isLast c candidates = true ↔ candidates.getLast? = some c := by
  rw [isLast]
  cases last : candidates.getLast? with
  | none => simp
  | some k =>
    have hk := List.mem_of_getLast? last
    rw [Option.some.injEq]
    exact Handle.beq_iff.trans ⟨List.inj_on_of_nodup_map nodup hk hc, congrArg Handle.place⟩

end

/-- If no candidate is there twice, a position from 1 on holds of a node just when it is the candidate
at that position. Position 0 holds of every node that is no candidate, so each node has exactly one
position: a candidate its own, and all other nodes 0. -/
theorem node_has_one_position (functions : Functions) (root h : Handle) (candidates : List Handle)
    (nodup : (candidates.map Handle.place).Nodup) :
    let holds (number : Nat) :=
      (Predicate.holds functions (.position number) h candidates root).value
    (∀ number, holds number = true ↔
      (1 ≤ number ∧ number ≤ candidates.length ∧
        ∃ k, candidates[number - 1]? = some k ∧ k.place = h.place) ∨
      (number = 0 ∧ ∀ k ∈ candidates, k.place ≠ h.place)) ∧
    ∃! number, holds number = true := by
  intro holds
  have tested : ∀ number, holds number = isAtPosition number h candidates :=
    fun number => Predicate.holds_position functions root h candidates number
  simp only [tested]
  constructor
  · intro number
    cases number with
    | zero => simp [isAtPosition_zero_iff]
    | succ index =>
      rw [isAtPosition_succ_iff nodup]
      constructor
      · rintro ⟨k, found, same⟩
        obtain ⟨inside, -⟩ := List.getElem?_eq_some_iff.mp found
        exact .inl ⟨Nat.succ_pos index, inside, k, found, same⟩
      · rintro (⟨-, -, k, found, same⟩ | ⟨none, -⟩)
        · exact ⟨k, found, same⟩
        · cases none
  · obtain ⟨number, here⟩ := exists_isAtPosition h candidates
    exact ⟨number, here, fun other there => isAtPosition_unique there here⟩

theorem node_has_one_position_second :
    let t := Tree.placed ⟨{ name := "a" }, [.named "b", .named "c", .named "d"]⟩
    let root : Handle := .plain t
    let d : Handle := .plain ((Tree.named "d").placedFrom 3)
    let candidates := root.children.drop 1
    (candidates.map Handle.place).Nodup ∧
      (Predicate.holds Registry.builtins.functions (.position 2) d candidates root).value = true ∧
      ∃! number,
        (Predicate.holds Registry.builtins.functions (.position number) d candidates root).value =
          true := by
  intro t root d candidates
  have nodup : (candidates.map Handle.place).Nodup := by decide
  obtain ⟨each, one⟩ := node_has_one_position Registry.builtins.functions root d candidates nodup
  exact ⟨nodup, (each 2).mpr (.inl ⟨by decide, by decide, d, rfl, rfl⟩), one⟩

/-- Of a node that is no candidate a position may hold all the same. -/
theorem node_has_one_position_outside :
    let root : Handle := .plain (Tree.placed ⟨{ name := "a" }, [.named "b"]⟩)
    let candidates := root.children
    (candidates.map Handle.place).Nodup ∧ (∀ k ∈ candidates, k.place ≠ root.place) ∧
      ¬ ((Predicate.holds Registry.builtins.functions (.position 0) root candidates root).value =
          true ↔
        1 ≤ 0 ∧ 0 ≤ candidates.length ∧
          ∃ k, candidates[0 - 1]? = some k ∧ k.place = root.place) := by
  intro root candidates
  refine ⟨by decide, by decide, fun claimed => ?_⟩
  obtain ⟨positive, -⟩ := claimed.mp rfl
  exact Nat.not_succ_le_zero 0 positive

/-- What a test leaves of a list without repetitions, if it is passed by one member at most. -/
theorem filter_eq_toList {α : Type} {items : List α} {test : α → Bool} {only : Option α}
    (nodup : items.Nodup) (inside : ∀ a ∈ only, a ∈ items)
    (passes : ∀ a ∈ items, test a = true ↔ only = some a) : items.filter test = only.toList := by
  have members : ∀ a, a ∈ items.filter test ↔ a ∈ only := by
    intro a
    rw [List.mem_filter]
    exact ⟨fun ⟨ha, passed⟩ => (passes a ha).mp passed,
      fun ha => ⟨inside a ha, (passes a (inside a ha)).mpr ha⟩⟩
  cases only with
  | none => exact List.eq_nil_iff_forall_not_mem.mpr fun a ha => nomatch (members a).mp ha
  | some k =>
    rw [Option.toList_some, ← List.perm_singleton,
      List.perm_ext_iff_of_nodup (nodup.filter test) (List.nodup_singleton k)]
    intro a
    rw [members, Option.mem_some, List.mem_singleton, eq_comm]

/-- Where one of its predicates holds of one candidate at most, a step finds that candidate or nothing,
just as the others hold of it. -/
theorem Step.take_only {functions : Functions} {axis : Axis} {test : NodeTest} {h root : Handle}
    {before after : List Predicate} {p : Predicate} {only : Option Handle}
    (nodup : ((candidatesOf axis test h root).map Handle.place).Nodup)
    (inside : ∀ c ∈ only, c ∈ candidatesOf axis test h root)
    (holds : ∀ c ∈ candidatesOf axis test h root,
      (p.holds functions c (candidatesOf axis test h root) root).value = true ↔ only = some c) :
    (Step.take functions (.mk axis test (before ++ p :: after)) root [h]).value =
      only.toList.filter fun c => (before ++ after).all fun q =>
        (q.holds functions c (candidatesOf axis test h root) root).value := by
  rw [← filter_eq_toList nodup.of_map inside holds, List.filter_filter, Step.take_value,
    List.flatMap_singleton]
  refine List.filter_congr fun c _ => ?_
  rw [List.all_append, List.all_cons, Bool.and_left_comm, List.all_append, Bool.and_comm]

/-- What a step finds is joined from what it finds from each of its nodes. From one node, a step with a
position finds the candidate at that position or nothing: it finds it just when the other predicates hold
of it, wherever the position stands among them. With `last` it finds the last candidate in the same way,
which is the one at the last position. With two different positions it finds nothing. -/
theorem positions_select_by_rank (registry : Registry) (t : Tree Placed) (ordered : t.Ordered)
    (root : Handle) (hr : root.Sound t) (axis : Axis) (test : NodeTest)
    (before after : List Predicate) :
    let functions := registry.functions
    let found (p : Predicate) (current : List Handle) :=
      (Step.take functions (.mk axis test (before ++ p :: after)) root current).value
    (∀ p current, found p current = current.flatMap fun h => found p [h]) ∧
    ∀ h : Handle, h.Sound t →
      let candidates := candidatesOf axis test h root
      let others (c : Handle) :=
        (before ++ after).all fun q => (q.holds functions c candidates root).value
      (∀ number, found (.position number) [h] =
        (Handle.atPosition? candidates number).toList.filter others) ∧
      (∀ number, number = 0 ∨ candidates.length < number → found (.position number) [h] = []) ∧
      (registry.get? "last" = some .last →
        found (.function "last") [h] = candidates.getLast?.toList.filter others ∧
        found (.function "last") [h] = found (.position candidates.length) [h]) ∧
      ∀ number other, number ≠ other → .position other ∈ before ++ after →
        found (.position number) [h] = [] := by
  intro functions found
  refine ⟨fun p current => Step.take_eq_flatMap functions root current _, fun h hh => ?_⟩
  intro candidates others
  have nodup : (candidates.map Handle.place).Nodup := nodup_candidatesOf ordered hr hh
  have ranked : ∀ number, found (.position number) [h] =
      (Handle.atPosition? candidates number).toList.filter others := by
    intro number
    refine Step.take_only nodup (fun c => Handle.mem_of_atPosition?) fun c hc => ?_
    rw [Predicate.holds_position]
    exact isAtPosition_iff_of_mem nodup hc
  refine ⟨ranked, fun number beyond => ?_, fun usual => ?_, fun number other differ there => ?_⟩
  · rw [ranked, Handle.atPosition?_eq_none_iff.mpr beyond]
    rfl
  · have last : found (.function "last") [h] = candidates.getLast?.toList.filter others := by
      refine Step.take_only nodup (fun c => List.mem_of_getLast?) fun c hc => ?_
      rw [Predicate.holds_function, Registry.answer_last _ _ _ usual]
      exact isLast_iff_of_mem nodup hc
    rw [ranked, Handle.atPosition?_length]
    exact ⟨last, last⟩
  · rw [ranked]
    refine List.filter_eq_nil_iff.mpr fun c hc all => differ ?_
    have found := Option.mem_toList.mp hc
    have here := (isAtPosition_iff_of_mem nodup (Handle.mem_of_atPosition? found)).mpr found
    have elsewhere := List.all_eq_true.mp all _ there
    rw [Predicate.holds_position] at elsewhere
    exact isAtPosition_unique here elsewhere

theorem positions_select_by_rank_second :
    let b (value : String) : Tree Label := ⟨{ name := "b", value := some value }, []⟩
    let t := Tree.placed ⟨{ name := "a" }, [b "x", .named "c", b "y"]⟩
    let root := (ParentIndex.build t).root
    let found (p : Predicate) (after : List Predicate) :=
      (Step.take Registry.builtins.functions
        (.mk .child (.named "b") (.attribute "value" "y" :: p :: after)) root [root]).value
    t.Ordered ∧ root.Sound t ∧ Registry.builtins.get? "last" = some .last ∧
      (found (.position 2) []).map Handle.place = [3] ∧ found (.position 1) [] = [] ∧
      found (.position 0) [] = [] ∧ found (.position 3) [] = [] ∧
      found (.function "last") [] = found (.position 2) [] ∧
      found (.position 1) [.position 2] = [] := by
  intro b t root found
  have ordered : t.Ordered := ordered_placed _
  have whole := t.self_mem_preorder
  have sound : root.Sound t := (Handle.within_build whole whole).sound ordered
  have usual : Registry.builtins.get? "last" = some .last := by rw [Registry.get?_builtins]; rfl
  have ranks := positions_select_by_rank .builtins t ordered root sound .child (.named "b")
    [.attribute "value" "y"]
  obtain ⟨-, alone⟩ := ranks []
  obtain ⟨ranked, beyond, last, -⟩ := alone root sound
  obtain ⟨-, twice⟩ := ranks [.position 2]
  obtain ⟨-, -, -, differ⟩ := twice root sound
  refine ⟨ordered, sound, usual, ?_, ranked 1, beyond 0 (.inl rfl), beyond 3 (.inr (by decide)),
    (last usual).2, differ 1 2 (by decide) (by simp)⟩
  exact congrArg (List.map Handle.place) (ranked 2)

end TreeQuery
