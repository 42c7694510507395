import Mathlib.Data.Finset.Card
import TreeQuery.Proofs.Query.Candidates
import TreeQuery.Proofs.Query.Report
import TreeQuery.Proofs.Query.Unchecked
import TreeQuery.Proofs.Query.Union

namespace TreeQuery

open TreeQuery.Tree

namespace Tree

/-- The way from the top down to `n` is so long. -/
def AtDepth (t : Tree Placed) (depth : Nat) (n : Tree Placed) : Prop :=
  ∃ way, Descent t way n ∧ way.length = depth

variable {t k n m : Tree Placed} {depth depth' : Nat}

theorem AtDepth.mem (h : AtDepth t depth n) : n ∈ t.preorder := by
  obtain ⟨way, descent, -⟩ := h
  exact descent.mem_preorder

theorem AtDepth.child (h : AtDepth t depth n) (child : k ∈ n.children) :
    AtDepth t (depth + 1) k := by
  obtain ⟨way, descent, rfl⟩ := h
  exact ⟨way ++ [k], descent.down child, List.length_append⟩

theorem AtDepth.unique (ordered : t.Ordered) (h : AtDepth t depth n) (h' : AtDepth t depth' n) :
    depth = depth' := by
  obtain ⟨way, descent, rfl⟩ := h
  obtain ⟨way', descent', rfl⟩ := h'
  rw [descent.unique ordered t.self_mem_preorder descent']

/-- The children of one node have one depth. -/
theorem AtDepth.sibling (ordered : t.Ordered) (h : AtDepth t depth n) {parent : Tree Placed}
    (hp : parent ∈ t.preorder) (hn : n ∈ parent.children) (hm : m ∈ parent.children) :
    AtDepth t depth m := by
  obtain ⟨way, descent⟩ := Descent.exists_of_mem hp
  have above : AtDepth t way.length parent := ⟨way, descent, rfl⟩
  rw [h.unique ordered (above.child hn)]
  exact above.child hm

/-- The trees under two nodes of one depth have no node in common. -/
theorem AtDepth.apart (ordered : t.Ordered) (hn : AtDepth t depth n) (hm : AtDepth t depth m)
    (below : k ∈ n.preorder) (below' : k ∈ m.preorder) : n = m := by
  obtain ⟨way, descent, long⟩ := hn
  obtain ⟨way', descent', rfl⟩ := hm
  obtain ⟨rest, down⟩ := Descent.exists_of_mem below
  obtain ⟨rest', down'⟩ := Descent.exists_of_mem below'
  have same := (descent.trans down).unique ordered t.self_mem_preorder (descent'.trans down')
  obtain rfl := (List.append_inj same long).1
  obtain ⟨front, ends⟩ := descent.ends
  obtain ⟨front', ends'⟩ := descent'.ends
  rw [ends] at ends'
  exact (List.append_inj' ends' rfl).2 |> List.cons.inj |>.1

end Tree

namespace Axis

/-- Whether the axis leads from nodes of one depth to nodes of one depth. -/
def isLevel : Axis → Bool
  | child | self | followingSibling | precedingSibling => true
  | _ => false

/-- Whether the axis leads down to everything below a node. -/
def isDeep : Axis → Bool
  | descendant | descendantOrSelf => true
  | _ => false

/-- The depth that the axis leads to from a given one. -/
def depthFrom : Axis → Nat → Nat
  | child, depth => depth + 1
  | _, depth => depth

variable {t k n m : Tree Placed} {axis : Axis} {depth : Nat}

theorem atDepth_reach (ordered : t.Ordered) (level : axis.isLevel) (hn : AtDepth t depth n)
    (hk : k ∈ axis.reach n t) : AtDepth t (axis.depthFrom depth) k := by
  cases axis with
  | child => exact hn.child hk
  | self => exact List.mem_singleton.mp hk ▸ hn
  | followingSibling =>
    have next := (nextSiblingIn?_eq_some_iff ordered t.self_mem_preorder hn.mem).mp
      (Option.mem_toList.mp hk)
    obtain ⟨parent, hp, before, after, children⟩ := next
    exact hn.sibling ordered hp (by simp [children]) (by simp [children])
  | precedingSibling =>
    have previous := (previousSiblingIn?_eq_some_iff ordered t.self_mem_preorder hn.mem).mp
      (Option.mem_toList.mp hk)
    obtain ⟨parent, hp, before, after, children⟩ := previous
    exact hn.sibling ordered hp (by simp [children]) (by simp [children])
  | _ => cases level

/-- What such an axis leads to tells where it came from. -/
theorem eq_of_mem_reach (ordered : t.Ordered) (level : axis.isLevel) (hn : n ∈ t.preorder)
    (hm : m ∈ t.preorder) (hk : k ∈ axis.reach n t) (hk' : k ∈ axis.reach m t) : n = m := by
  have inside := axis.reach_mem hn k hk
  cases axis with
  | child => exact ordered.parent_unique hn hm hk hk' rfl
  | self => exact (List.mem_singleton.mp hk).symm.trans (List.mem_singleton.mp hk')
  | followingSibling =>
    have back := (mem_precedingSibling_iff ordered hn inside).mpr hk
    have back' := (mem_precedingSibling_iff ordered hm inside).mpr hk'
    exact Option.some.inj ((Option.mem_toList.mp back).symm.trans (Option.mem_toList.mp back'))
  | precedingSibling =>
    have forth := (mem_precedingSibling_iff ordered inside hn).mp hk
    have forth' := (mem_precedingSibling_iff ordered inside hm).mp hk'
    exact Option.some.inj ((Option.mem_toList.mp forth).symm.trans (Option.mem_toList.mp forth'))
  | _ => cases level

theorem mem_preorder_of_mem_reach (ordered : n.Ordered) (deep : axis.isDeep)
    (hk : k ∈ axis.reach n t) : k ∈ n.preorder := by
  cases axis with
  | descendant => exact (ordered.mem_below_iff.mp hk).1
  | descendantOrSelf => exact (mem_descendantOrSelf_iff ordered).mp hk
  | _ => cases deep

/-- An axis that leads from different nodes to different ones finds none twice. -/
theorem nodup_flatMap_reach (ordered : t.Ordered) {nodes : List (Tree Placed)}
    (inside : ∀ n ∈ nodes, n ∈ t.preorder) (nodup : nodes.Nodup)
    (apart : ∀ n ∈ nodes, ∀ m ∈ nodes, ∀ k ∈ axis.reach n t, k ∈ axis.reach m t → n = m) :
    (nodes.flatMap (axis.reach · t)).Nodup := by
  rw [List.nodup_flatMap]
  refine ⟨fun n hn => (axis.nodup_reach ordered (inside n hn)).of_map, ?_⟩
  refine nodup.imp_of_mem fun {n m} hn hm differ => ?_
  intro k hk hk'
  exact differ (apart n hn m hm k hk hk')

end Axis

/-- Nodes of the tree, none of them twice. -/
structure Spread (t : Tree Placed) (nodes : List (Tree Placed)) : Prop where
  inside : ∀ n ∈ nodes, n ∈ t.preorder
  nodup : nodes.Nodup

/-- Nodes of one depth, none of them twice. -/
structure Tier (t : Tree Placed) (nodes : List (Tree Placed)) : Prop extends Spread t nodes where
  depth : ∃ depth, ∀ n ∈ nodes, AtDepth t depth n

section

variable {t : Tree Placed} {axis : Axis} {nodes found : List (Tree Placed)}

theorem tier_top (t : Tree Placed) : Tier t [t] where
  inside _ hn := List.mem_singleton.mp hn ▸ t.self_mem_preorder
  nodup := List.nodup_singleton t
  depth := ⟨0, fun _ hn => List.mem_singleton.mp hn ▸ ⟨[], .here, rfl⟩⟩

theorem Spread.of_reach (spread : Spread t nodes) (nodup : (nodes.flatMap (axis.reach · t)).Nodup)
    (part : found.Sublist (nodes.flatMap (axis.reach · t))) : Spread t found := by
  refine ⟨fun k hk => ?_, nodup.sublist part⟩
  obtain ⟨n, hn, reached⟩ := List.mem_flatMap.mp (part.subset hk)
  exact axis.reach_mem (spread.inside n hn) k reached

theorem Spread.step (ordered : t.Ordered) (spread : Spread t nodes) (level : axis.isLevel)
    (part : found.Sublist (nodes.flatMap (axis.reach · t))) : Spread t found := by
  refine spread.of_reach ?_ part
  refine Axis.nodup_flatMap_reach ordered spread.inside spread.nodup fun n hn m hm k hk hk' => ?_
  exact Axis.eq_of_mem_reach ordered level (spread.inside n hn) (spread.inside m hm) hk hk'

theorem Tier.step (ordered : t.Ordered) (tier : Tier t nodes) (level : axis.isLevel)
    (part : found.Sublist (nodes.flatMap (axis.reach · t))) : Tier t found := by
  obtain ⟨depth, same⟩ := tier.depth
  refine ⟨tier.toSpread.step ordered level part, axis.depthFrom depth, fun k hk => ?_⟩
  obtain ⟨n, hn, reached⟩ := List.mem_flatMap.mp (part.subset hk)
  exact Axis.atDepth_reach ordered level (same n hn) reached

/-- Below a tier every node is found once, from the one node of the tier that it is under. -/
theorem Tier.stepBelow (ordered : t.Ordered) (tier : Tier t nodes) (deep : axis.isDeep)
    (part : found.Sublist (nodes.flatMap (axis.reach · t))) : Spread t found := by
  obtain ⟨depth, same⟩ := tier.depth
  refine tier.toSpread.of_reach ?_ part
  refine Axis.nodup_flatMap_reach ordered tier.inside tier.nodup fun n hn m hm k hk hk' => ?_
  have under := Axis.mem_preorder_of_mem_reach (ordered.part (tier.inside n hn)) deep hk
  have under' := Axis.mem_preorder_of_mem_reach (ordered.part (tier.inside m hm)) deep hk'
  exact (same n hn).apart ordered (same m hm) under under'

/-- Handles on different nodes differ. -/
theorem Spread.nodup_place (ordered : t.Ordered) (spread : Spread t nodes)
    (i : Option ParentIndex) : ((nodes.map (Handle.mk · i)).map Handle.place).Nodup := by
  rw [List.map_map]
  refine List.Nodup.map_on (fun n hn m hm same => ?_) spread.nodup
  exact ordered.eq_of_place (spread.inside n hn) (spread.inside m hm) same

end

section

variable (functions : Functions) {t : Tree Placed} {root : Handle} {nodes : List (Tree Placed)}

/-- A step leads to some of what its axis leads to, in the same order. -/
theorem Step.take_sublist (s : Step) (root : Handle) (current : List Handle) :
    (s.take functions root current).value.Sublist (current.flatMap (s.axis.follow · root)) := by
  obtain ⟨axis, test, ps⟩ := s
  rw [Step.take_value]
  induction current with
  | nil => exact .slnil
  | cons h current ih =>
    rw [List.flatMap_cons, List.flatMap_cons]
    exact (List.filter_sublist.trans List.filter_sublist).append ih

/-- From handles that look for parents where the root does, a step leads to such handles. -/
theorem Step.take_nodes (ordered : t.Ordered) (hr : root.Sound t) (top : root.node = t)
    (inside : ∀ n ∈ nodes, n ∈ t.preorder) (s : Step) :
    ∃ found : List (Tree Placed),
      (s.take functions root (nodes.map (Handle.mk · root.index))).value =
        found.map (Handle.mk · root.index) ∧
      found.Sublist (nodes.flatMap (s.axis.reach · t)) := by
  have followed : (nodes.map (Handle.mk · root.index)).flatMap (s.axis.follow · root) =
      (nodes.flatMap (s.axis.reach · t)).map (Handle.mk · root.index) := by
    subst top
    rw [List.flatMap_map, List.map_flatMap]
    refine List.flatMap_congr fun n hn => ?_
    exact s.axis.follow_eq ordered root.node.self_mem_preorder (inside n hn)
      (hr.at (inside n hn)) (.inr (.inl rfl))
  have taken := s.take_sublist functions root (nodes.map (Handle.mk · root.index))
  rw [followed] at taken
  obtain ⟨found, part, same⟩ := List.sublist_map_iff.mp taken
  exact ⟨found, same, part⟩

theorem Spread.steps (ordered : t.Ordered) (hr : root.Sound t) (top : root.node = t)
    (steps : List Step) (level : ∀ s ∈ steps, s.axis.isLevel) (spread : Spread t nodes) :
    ∃ found : List (Tree Placed),
      steps.foldl (fun current s => (s.take functions root current).value)
          (nodes.map (Handle.mk · root.index)) = found.map (Handle.mk · root.index) ∧
        Spread t found := by
  induction steps generalizing nodes with
  | nil => exact ⟨nodes, rfl, spread⟩
  | cons s steps ih =>
    obtain ⟨found, taken, part⟩ := s.take_nodes functions ordered hr top spread.inside
    rw [List.foldl_cons, taken]
    have later : ∀ s ∈ steps, s.axis.isLevel := fun s hs => level s (List.mem_cons_of_mem _ hs)
    exact ih later (spread.step ordered (level s List.mem_cons_self) part)

/-- Up to the step that goes below, all nodes have one depth; from there on they only differ. -/
theorem Tier.steps (ordered : t.Ordered) (hr : root.Sound t) (top : root.node = t)
    (steps : List Step) (axes : ∀ s ∈ steps, s.axis.isLevel ∨ s.axis.isDeep)
    (once : steps.countP (fun s => s.axis.isDeep) ≤ 1) (tier : Tier t nodes) :
    ∃ found : List (Tree Placed),
      steps.foldl (fun current s => (s.take functions root current).value)
          (nodes.map (Handle.mk · root.index)) = found.map (Handle.mk · root.index) ∧
        Spread t found := by
  induction steps generalizing nodes with
  | nil => exact ⟨nodes, rfl, tier.toSpread⟩
  | cons s steps ih =>
    obtain ⟨found, taken, part⟩ := s.take_nodes functions ordered hr top tier.inside
    have later := fun s hs => axes s (List.mem_cons_of_mem _ hs)
    rw [List.countP_cons] at once
    cases deep : s.axis.isDeep with
    | false =>
      have level := (axes s List.mem_cons_self).resolve_right (by simp [deep])
      rw [List.foldl_cons, taken]
      exact ih later (Nat.le_of_add_right_le once) (tier.step ordered level part)
    | true =>
      rw [if_pos deep] at once
      have none : steps.countP (fun s => s.axis.isDeep) = 0 := by omega
      have level : ∀ s ∈ steps, s.axis.isLevel := fun s hs =>
        (later s hs).resolve_right (List.countP_eq_zero.mp none s hs)
      rw [List.foldl_cons, taken]
      exact (tier.stepBelow ordered deep part).steps functions ordered hr top steps level

end

/-- Where there is no only match, there is none or there are two. -/
theorem Handle.differ_of_single?_eq_none {matched : List Handle}
    (nodup : (matched.map place).Nodup) (none : single? matched = none) :
    matched = [] ∨ ∃ h ∈ matched, ∃ k ∈ matched, h.place ≠ k.place := by
  match matched with
  | [] => exact .inl rfl
  | [h] => cases none
  | h :: k :: more =>
    rw [List.map_cons, List.nodup_cons] at nodup
    refine .inr ⟨h, List.mem_cons_self, k, List.mem_cons_of_mem h List.mem_cons_self, ?_⟩
    intro same
    exact nodup.1 (same ▸ List.mem_cons_self)

/-- A path from the topmost node that stays on a level or goes to the next, but for one step at most
that goes to all below, finds no node twice, whatever its steps test. So the number that is reported is
that of the nodes found, and where there is no only match, there is none or there are two nodes. -/
theorem no_node_found_twice (t : Tree Label) (root : Handle) (hr : root.Within t.placed)
    (top : root.node = t.placed) (registry : Registry) (absolute : Bool) (steps : List Step)
    (axes : ∀ s ∈ steps, s.axis.isLevel ∨ s.axis.isDeep)
    (once : steps.countP (fun s => s.axis.isDeep) ≤ 1) :
    let e := Expr.path absolute steps
    ((∀ name ∈ e.functionNames, registry.contains name = true) →
      ∃ matched, (e.evaluate registry root).value = .ok matched) ∧
    ∀ matched, (e.evaluate registry root).value = .ok matched →
      (matched.map Handle.place).Nodup ∧
      (∃ count, count = (matched.map Handle.place).toFinset.card ∧
        e.report .count registry root =
          .ok (String.ofList (Nat.toDigits 10 count) ++ "\n", count)) ∧
      (Handle.single? matched = none →
        matched = [] ∨ ∃ h ∈ matched, ∃ k ∈ matched, h.place ≠ k.place) := by
  intro e
  constructor
  · intro known
    have missing : e.missing registry.functions = [] := Expr.missing_eq_nil fun name used => by
      rw [registry.functions_isSome]
      exact known name (e.mem_functionNames_iff.mpr used)
    exact ⟨_, Expr.evaluateWith_eq_ok_iff.mpr ⟨missing, rfl⟩⟩
  · intro matched evaluated
    have ordered := ordered_placed t
    obtain ⟨-, selected⟩ := Expr.evaluateWith_eq_ok_iff.mp evaluated
    obtain ⟨found, taken, spread⟩ :=
      (tier_top t.placed).steps registry.functions ordered (hr.sound ordered) top steps axes once
    have start : [t.placed].map (Handle.mk · root.index) = [root] := by
      rw [← top]
      rfl
    rw [Expr.select_path, ← start, taken] at selected
    have nodup : (matched.map Handle.place).Nodup := by
      rw [← selected]
      exact spread.nodup_place ordered root.index
    refine ⟨nodup, ⟨matched.length, ?_, ?_⟩, Handle.differ_of_single?_eq_none nodup⟩
    · rw [List.toFinset_card_of_nodup nodup, List.length_map]
    · exact Expr.report_eq_ok_iff.mpr ⟨matched, evaluated, ReportMode.report_count matched, rfl⟩

theorem no_node_found_twice_below_siblings :
    let t : Tree Label := ⟨{ name := "a" },
      [⟨{ name := "b" }, [.named "c"]⟩, ⟨{ name := "b" }, [.named "c", .named "c"]⟩]⟩
    let root := (ParentIndex.build t.placed).root
    let steps : List Step := [.mk .child (.named "b") [], .mk .descendantOrSelf .any [],
      .mk .precedingSibling .any [.position 1]]
    root.Within t.placed ∧ (∀ s ∈ steps, s.axis.isLevel ∨ s.axis.isDeep) ∧
      steps.countP (fun s => s.axis.isDeep) ≤ 1 ∧
      ∃ matched, ((Expr.path false steps).evaluate .builtins root).value = .ok matched ∧
        (matched.map Handle.place).Nodup := by
  intro t root steps
  have whole := t.placed.self_mem_preorder
  have hr : root.Within t.placed := Handle.within_build whole whole
  have axes : ∀ s ∈ steps, s.axis.isLevel ∨ s.axis.isDeep := by decide
  have once : steps.countP (fun s => s.axis.isDeep) ≤ 1 := by decide
  obtain ⟨succeeds, distinct⟩ := no_node_found_twice t root hr rfl .builtins false steps axes once
  obtain ⟨matched, evaluated⟩ := succeeds (by decide)
  exact ⟨hr, axes, once, matched, evaluated, (distinct matched evaluated).1⟩

end TreeQuery
