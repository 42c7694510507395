import Mathlib.Data.List.Chain
import TreeQuery.Proofs.Tree.Below

namespace TreeQuery

open TreeQuery.Tree

namespace Tree

/-- The path starts at `r` and ends at `n`, and each node on it is a child of the one before. -/
structure LeadsDown (r n : Tree Placed) (path : List (Tree Placed)) : Prop where
  first : path.head? = some r
  last : path.getLast? = some n
  linked : path.IsChain fun m k => k ∈ m.children

variable {r n : Tree Placed} {way path : List (Tree Placed)}

theorem Descent.leadsDown (h : Descent r way n) : LeadsDown r n (r :: way) := by
  induction h with
  | here => exact ⟨rfl, rfl, .singleton r⟩
  | @down way m n above child ih =>
    refine ⟨rfl, by rw [← List.cons_append, List.getLast?_concat], ?_⟩
    rw [← List.cons_append, List.isChain_append]
    refine ⟨ih.linked, .singleton n, fun k hk c hc => ?_⟩
    obtain rfl : m = k := Option.some.inj (ih.last.symm.trans hk)
    obtain rfl : n = c := Option.some.inj hc
    exact child

theorem LeadsDown.descent (h : LeadsDown r n path) : ∃ way, path = r :: way ∧ Descent r way n := by
  obtain ⟨first, last, linked⟩ := h
  obtain ⟨way, rfl⟩ := List.head?_eq_some_iff.mp first
  refine ⟨way, rfl, ?_⟩
  clear first
  induction way generalizing r with
  | nil =>
    obtain rfl := Option.some.inj last
    exact .here
  | cons c way ih =>
    rw [List.isChain_cons_cons] at linked
    rw [List.getLast?_cons_cons] at last
    exact (ih last linked.2).under linked.1

end Tree

namespace Handle

/-- A path and the nodes pending behind it, each with its depth: none is deeper than the path is long,
and none is deeper than one that comes before it. -/
structure Aligned (path : List Handle) (pending : List (Handle × Nat)) : Prop where
  within : ∀ entry ∈ pending, entry.2 ≤ path.length
  falling : pending.Pairwise fun entry later => later.2 ≤ entry.2

namespace Aligned

variable {path : List Handle} {h : Handle} {depth : Nat} {pending : List (Handle × Nat)}

theorem start (h : Handle) : Aligned [] [(h, 0)] := ⟨by simp, List.pairwise_singleton _ _⟩

section

variable (aligned : Aligned path ((h, depth) :: pending))

include aligned

theorem le_depth {entry : Handle × Nat} (later : entry ∈ pending) : entry.2 ≤ depth :=
  List.rel_of_pairwise_cons aligned.falling later

theorem length_take : (path.take depth).length = depth :=
  List.length_take_of_le (aligned.within (h, depth) List.mem_cons_self)

theorem length_next : (path.take depth ++ [h]).length = depth + 1 := by
  rw [List.length_append, aligned.length_take, List.length_singleton]

/-- What the other pending nodes keep of the path is kept when it is cut back for the first of them. -/
theorem take_next {entry : Handle × Nat} (later : entry ∈ pending) :
    (path.take depth ++ [h]).take entry.2 = path.take entry.2 := by
  have lower := aligned.le_depth later
  have inside : entry.2 ≤ (path.take depth).length := aligned.length_take.symm ▸ lower
  rw [List.take_append_of_le_length inside, List.take_take, Nat.min_eq_left lower]

/-- The search goes on with the children of the first pending node, one deeper than it. -/
theorem next : Aligned (path.take depth ++ [h])
    (h.children.map (fun child => (child, depth + 1)) ++ pending) := by
  refine { within := ?within, falling := ?falling }
  case within =>
    intro entry hentry
    rw [aligned.length_next]
    rcases List.mem_append.mp hentry with child | later
    · obtain ⟨c, -, rfl⟩ := List.mem_map.mp child
      exact Nat.le_refl _
    · exact Nat.le_succ_of_le (aligned.le_depth later)
  case falling =>
    rw [List.pairwise_append]
    refine ⟨?_, aligned.falling.of_cons, fun entry child later hlater => ?_⟩
    · rw [List.pairwise_map]
      exact List.pairwise_of_forall fun _ _ => Nat.le_refl _
    · obtain ⟨c, -, rfl⟩ := List.mem_map.mp child
      exact Nat.le_succ_of_le (aligned.le_depth hlater)

end

end Aligned

/-- The path down to `target` through a pending node: what it keeps of the path, and the way from it. -/
def pathThrough (target : Handle) (path : List Handle) (entry : Handle × Nat) :
    Option (List Handle) :=
  (wayTo target.place entry.1.node).map fun way =>
    path.take entry.2 ++ way.map (Handle.mk · entry.1.index)

section

variable {target h : Handle} {depth : Nat} {pending : List (Handle × Nat)}

section

variable {path : List Handle} (aligned : Aligned path ((h, depth) :: pending))

include aligned

theorem pathThrough_next {entry : Handle × Nat} (later : entry ∈ pending) :
    pathThrough target (path.take depth ++ [h]) entry = pathThrough target path entry := by
  rw [pathThrough, pathThrough, aligned.take_next later]

/-- A way through a node that is not the target goes through one of its children. -/
theorem pathThrough_children (other : h.place ≠ target.place) :
    pathThrough target path (h, depth) =
      (h.children.map fun child => (child, depth + 1)).findSome?
        (pathThrough target (path.take depth ++ [h])) := by
  have kept : (path.take depth ++ [h]).take (depth + 1) = path.take depth ++ [h] :=
    List.take_of_length_le (Nat.le_of_eq aligned.length_next)
  have differ : ¬ h.node.place = target.place := other
  rw [pathThrough, wayTo_eq, if_neg differ, waysTo_eq, Option.map_map, List.map_findSome?,
    children_eq, List.map_map, List.findSome?_map]
  congr 1
  funext c
  simp [pathThrough, kept, Function.comp_def]

end

/-- The target is found under the first of the pending nodes that a way to it goes through. -/
theorem searchAll_eq {path : Array Handle} (aligned : Aligned path.toList pending) :
    (searchAll target path pending).map Array.toList =
      pending.findSome? (pathThrough target path.toList) := by
  induction path, pending using searchAll.induct target with
  | case1 path =>
    rw [searchAll]
    rfl
  | case2 path h depth pending here =>
    have same : h.node.place = target.place := beq_iff.mp here
    rw [searchAll, if_pos here, List.findSome?_cons, pathThrough, wayTo_eq, if_pos same]
    simp
  | case3 path h depth pending other ih =>
    have differ : h.place ≠ target.place := fun same => other (beq_iff.mpr same)
    -- The path is another one now, but none of the nodes that stay pending sees the difference.
    have others : pending.findSome? (pathThrough target (path.toList.take depth ++ [h])) =
        pending.findSome? (pathThrough target path.toList) := by
      rw [← List.head?_filterMap, ← List.head?_filterMap]
      exact congrArg List.head? (List.filterMap_congr fun _ => pathThrough_next aligned)
    rw [toList_leadOn] at ih
    rw [searchAll, if_neg other, ih aligned.next, List.findSome?_append, others,
      List.findSome?_cons, ← pathThrough_children aligned differ]
    cases pathThrough target path.toList (h, depth) <;> rfl

end

theorem pathDownTo_eq (target start : Handle) :
    pathDownTo target start =
      (wayTo target.place start.node).map (List.map (Handle.mk · start.index)) := by
  rw [pathDownTo, searchAll_eq (.start start), List.findSome?_singleton, pathThrough]
  simp

section

variable {target start : Handle}

theorem pathDownTo_isSome_iff :
    (pathDownTo target start).isSome ↔ ∃ k ∈ start.walk, k == target := by
  rw [pathDownTo_eq, Option.isSome_map]
  constructor
  · intro isSome
    obtain ⟨path, found⟩ := Option.isSome_iff_exists.mp isSome
    obtain ⟨way, n, -, descent, same⟩ := wayTo_sound found
    exact ⟨⟨n, start.index⟩, mem_walk_iff.mpr ⟨descent.mem_preorder, rfl⟩, beq_iff.mpr same⟩
  · intro inside
    obtain ⟨k, hk, same⟩ := inside
    have here : k.node.place = target.place := beq_iff.mp same
    rw [← here]
    exact wayTo_isSome (mem_walk_iff.mp hk).1

/-- A path that is found leads down from node to node, as handles of the kind it starts with. -/
theorem leadsDown_of_pathDownTo {path : List Handle} (found : pathDownTo target start = some path) :
    ∃ nodes n, path = nodes.map (Handle.mk · start.index) ∧ LeadsDown start.node n nodes ∧
      n ∈ start.node.preorder ∧ n.place = target.place := by
  rw [pathDownTo_eq] at found
  obtain ⟨nodes, isWay, rfl⟩ := Option.map_eq_some_iff.mp found
  obtain ⟨way, n, rfl, descent, same⟩ := wayTo_sound isWay
  exact ⟨start.node :: way, n, rfl, descent.leadsDown, descent.mem_preorder, same⟩

end

/-- There is a path down to a handle just when one of those that are reached through children is equal to
it, and the path then starts where it should, ends at an equal handle, and goes from each handle to one
of its children. In a tree whose places tell its nodes, equal handles are on the same node. -/
theorem pathDownTo_finds_way (target start : Handle) :
    ((pathDownTo target start).isSome ↔ ∃ k ∈ start.walk, k == target) ∧
    (∀ path, pathDownTo target start = some path →
      path.head? = some start ∧ (∃ k ∈ start.walk, path.getLast? = some k ∧ k == target) ∧
        path.IsChain fun m k => k ∈ m.children) ∧
    ∀ t : Tree Placed, t.Ordered → target.node ∈ t.preorder → start.node ∈ t.preorder →
      ∀ k ∈ start.walk, k == target ↔ k.node = target.node := by
  refine ⟨pathDownTo_isSome_iff, fun path found => ?_, fun t ordered ht hs k hk => ?_⟩
  · obtain ⟨nodes, n, rfl, leads, inside, same⟩ := leadsDown_of_pathDownTo found
    refine ⟨?_, ⟨⟨n, start.index⟩, mem_walk_iff.mpr ⟨inside, rfl⟩, ?_, beq_iff.mpr same⟩, ?_⟩
    · rw [List.head?_map, leads.first]
      rfl
    · rw [List.getLast?_map, leads.last]
      rfl
    · rw [List.isChain_map]
      exact leads.linked.imp fun m c child => List.mem_map_of_mem child
  · have inside := mem_preorder_trans hs (mem_walk_iff.mp hk).1
    constructor
    · exact fun same => ordered.eq_of_place inside ht (beq_iff.mp same)
    · exact fun same => beq_iff.mpr (congrArg Tree.place same)

/-- A node of the same content comes first, and is searched through and left again. -/
theorem pathDownTo_finds_way_second_branch :
    let x : Tree Label := .named "x"
    let b : Tree Label := ⟨{ name := "b" }, [x]⟩
    let c : Tree Label := ⟨{ name := "c" }, [x]⟩
    let t : Tree Label := ⟨{ name := "a" }, [b, c]⟩
    let target : Handle := .plain (x.placedFrom 4)
    target.node ∈ t.placed.preorder ∧
      (∃ path k, pathDownTo target (.plain t.placed) = some path ∧ path.getLast? = some k ∧
        k.node = target.node) ∧
      pathDownTo target (.plain (b.placedFrom 1)) = none := by
  intro x b c t target
  have inside : target.node ∈ t.placed.preorder := by decide
  obtain ⟨found, leads, identity⟩ := pathDownTo_finds_way target (.plain t.placed)
  have reached : target ∈ (plain t.placed).walk := mem_walk_iff.mpr ⟨inside, rfl⟩
  obtain ⟨path, isPath⟩ := Option.isSome_iff_exists.mp
    (found.mpr ⟨target, reached, beq_iff.mpr rfl⟩)
  obtain ⟨-, ⟨k, hk, last, same⟩, -⟩ := leads path isPath
  have here := (identity t.placed (ordered_placed t) inside t.placed.self_mem_preorder k hk).mp same
  refine ⟨inside, ⟨path, k, isPath, last, here⟩, ?_⟩
  obtain ⟨elsewhere, -, -⟩ := pathDownTo_finds_way target (.plain (b.placedFrom 1))
  rw [← Option.not_isSome_iff_eq_none, elsewhere]
  intro other
  obtain ⟨k, hk, same⟩ := other
  have places : ∀ n ∈ (b.placedFrom 1).preorder, n.place ≠ 4 := by decide
  exact places k.node (mem_walk_iff.mp hk).1 (beq_iff.mp same)

end Handle

end TreeQuery
