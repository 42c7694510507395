import TreeQuery.Proofs.Tree.Index
import TreeQuery.Proofs.Tree.PathDown

namespace TreeQuery

open TreeQuery.Tree

/-- What an index says of the nodes of `t` is true. -/
def ParentIndex.Sound (t : Tree Placed) (index : ParentIndex) : Prop :=
  ∀ n ∈ t.preorder, ∀ m, index.parent? n = some m → m ∈ t.preorder ∧ n ∈ m.children

/-- A handle on a node of `t`, with no index or one that is right about the nodes of `t`. -/
structure Handle.Sound (t : Tree Placed) (h : Handle) : Prop where
  node : h.node ∈ t.preorder
  index : ∀ index ∈ h.index, index.Sound t

/-- A handle on a node of `t`, with no index or the index of some part of `t`. -/
structure Handle.Within (t : Tree Placed) (h : Handle) : Prop where
  node : h.node ∈ t.preorder
  index : ∀ index ∈ h.index, ∃ top ∈ t.preorder, index = ParentIndex.build top

namespace Handle

variable {t : Tree Placed} {h k root : Handle}

theorem within_plain {n : Tree Placed} (hn : n ∈ t.preorder) : (plain n).Within t :=
  ⟨hn, by simp [plain]⟩

theorem within_build {n top : Tree Placed} (hn : n ∈ t.preorder) (ht : top ∈ t.preorder) :
    ((ParentIndex.build top).handle n).Within t := by
  refine ⟨hn, fun index hi => ⟨top, ht, ?_⟩⟩
  exact (Option.some.inj hi).symm

theorem Within.sound (ordered : t.Ordered) (hh : h.Within t) : h.Sound t := by
  refine ⟨hh.node, fun index hi n hn m found => ?_⟩
  obtain ⟨top, htop, rfl⟩ := hh.index index hi
  obtain ⟨hm, child⟩ := (ParentIndex.parent?_eq_some_iff ordered htop hn).mp found
  exact ⟨mem_preorder_trans htop hm, child⟩

theorem Sound.parent? (hh : h.Sound t) (found : h.parent? = some k) :
    k.Sound t ∧ k.index = h.index ∧ h.node ∈ k.node.children := by
  obtain ⟨index, hi, found⟩ := Option.bind_eq_some_iff.mp found
  obtain ⟨m, parent, rfl⟩ := Option.map_eq_some_iff.mp found
  obtain ⟨hm, child⟩ := hh.index index hi h.node hh.node m parent
  exact ⟨⟨hm, fun _ same => hh.index _ (hi.trans same)⟩, hi.symm, child⟩

theorem Within.parent? (ordered : t.Ordered) (hh : h.Within t) (found : h.parent? = some k) :
    k.Within t ∧ k.index = h.index ∧ h.node ∈ k.node.children := by
  obtain ⟨sound, same, child⟩ := (hh.sound ordered).parent? found
  exact ⟨⟨sound.node, same ▸ hh.index⟩, same, child⟩

/-- Climbing from `h` passes these handles, here top down, and comes to `top`: the first that is the
root or knows no parent. -/
inductive Climbs (root : Handle) : Handle → List Handle → Handle → Prop where
  | arrived {h : Handle} (here : (h == root) = true) : Climbs root h [] h
  | stuck {h : Handle} (below : (h == root) = false) (unknown : h.parent? = none) :
    Climbs root h [] h
  | up {h parent top : Handle} {passed : List Handle} (below : (h == root) = false)
    (next : h.parent? = some parent) (rest : Climbs root parent passed top) :
    Climbs root h (passed ++ [h]) top

theorem Sound.parent?_lt (ordered : t.Ordered) (hh : h.Sound t) (next : h.parent? = some k) :
    k.place < h.place := by
  obtain ⟨above, -, child⟩ := hh.parent? next
  exact ordered.lt_of_child above.node child

theorem Sound.exists_climbs (ordered : t.Ordered) (hh : h.Sound t) (root : Handle) :
    ∃ passed top, Climbs root h passed top := by
  induction hp : h.place using Nat.strongRecOn generalizing h with
  | ind place ih =>
    cases here : h == root with
    | true => exact ⟨[], h, .arrived here⟩
    | false =>
      cases next : h.parent? with
      | none => exact ⟨[], h, .stuck here next⟩
      | some parent =>
        have earlier := hh.parent?_lt ordered next
        obtain ⟨passed, top, rest⟩ := ih parent.place (hp ▸ earlier) (hh.parent? next).1 rfl
        exact ⟨passed ++ [h], top, .up here next rest⟩

section

variable {top : Handle} {passed : List Handle}

/-- The bound on the steps of climbing is never what ends it. -/
theorem Climbs.climb_eq (ordered : t.Ordered) (climbs : Climbs root h passed top)
    (hh : h.Sound t) {steps : Nat} (enough : h.place ≤ steps) (before : List Handle) :
    climb root steps h before = (top, passed ++ before) := by
  induction climbs generalizing steps before with
  | arrived here =>
    cases steps with
    | zero => rfl
    | succ steps =>
      rw [climb, if_pos here]
      rfl
  | stuck below unknown =>
    cases steps with
    | zero => rfl
    | succ steps =>
      rw [climb, below, unknown]
      rfl
  | @up h parent top passed below next rest ih =>
    have earlier := hh.parent?_lt ordered next
    obtain ⟨steps, rfl⟩ := Nat.exists_eq_succ_of_ne_zero (n := steps) (by omega)
    rw [climb, below, next, List.append_assoc]
    exact ih (hh.parent? next).1 (by omega) (h :: before)

/-- Climbing goes up one way and stays under the root, if it has started there. -/
theorem Climbs.descent (ordered : t.Ordered) (hr : root.node ∈ t.preorder)
    (climbs : Climbs root h passed top) (hh : h.Sound t) :
    ∃ way, passed = way.map (Handle.mk · h.index) ∧ Descent top.node way h.node ∧ top.Sound t ∧
      top.index = h.index ∧ (h.node ∈ root.node.preorder → top.node ∈ root.node.preorder) := by
  induction climbs with
  | arrived => exact ⟨[], rfl, .here, hh, rfl, id⟩
  | stuck => exact ⟨[], rfl, .here, hh, rfl, id⟩
  | @up h parent top passed below next rest ih =>
    obtain ⟨hp, same, child⟩ := hh.parent? next
    obtain ⟨way, rfl, descent, htop, index, under⟩ := ih hp
    refine ⟨way ++ [h.node], ?_, .down descent child, htop, index.trans same, fun inside => ?_⟩
    · rw [same, List.map_append]
      rfl
    · apply under
      rcases eq_or_child inside with here | ⟨m, hm, child'⟩
      · have arrived : (h == root) = true := beq_iff.mpr (congrArg Tree.place here)
        rw [below] at arrived
        cases arrived
      · have hm' := mem_preorder_trans hr hm
        rwa [ordered.parent_unique hp.node hm' child child' rfl]

/-- The path from the root, put together from what is climbed and what is searched. -/
theorem Climbs.pathFromRoot_eq (ordered : t.Ordered) (climbs : Climbs root h passed top)
    (hh : h.Sound t) :
    pathFromRoot h root =
      if top == root then some (top :: passed) else (pathDownTo top root).map (· ++ passed) := by
  rw [pathFromRoot, climbs.climb_eq ordered hh (Nat.le_refl _), List.append_nil]

end

/-- However much of the way a handle knows itself, it finds the one way down from the root. -/
theorem pathFromRoot_of_descent (ordered : t.Ordered) (hr : root.node ∈ t.preorder)
    (hh : h.Sound t) {way : List (Tree Placed)} (descent : Descent root.node way h.node) :
    ∃ path, pathFromRoot h root = some path ∧ path.map node = root.node :: way ∧
      ∀ k ∈ path, k.index = h.index ∨ k.index = root.index := by
  obtain ⟨climbed, top, climbs⟩ := hh.exists_climbs ordered root
  obtain ⟨passed, rfl, last, htop, index, under⟩ := climbs.descent ordered hr hh
  have below := under descent.mem_preorder
  have passedIndex : ∀ k ∈ passed.map (Handle.mk · h.index), k.index = h.index := by
    intro k hk
    obtain ⟨n, -, rfl⟩ := List.mem_map.mp hk
    rfl
  rw [climbs.pathFromRoot_eq ordered hh]
  by_cases arrived : top == root
  · have same := ordered.eq_of_place htop.node hr (beq_iff.mp arrived)
    rw [same] at last
    obtain rfl := descent.unique ordered hr last
    refine ⟨_, if_pos arrived, ?_, ?_⟩
    · simp [same, Function.comp_def]
    · intro k hk
      rcases List.mem_cons.mp hk with rfl | hk
      · exact .inl index
      · exact .inl (passedIndex k hk)
  · obtain ⟨first, hfirst⟩ := Descent.exists_of_mem below
    obtain rfl := descent.unique ordered hr (hfirst.trans last)
    have found : wayTo top.place root.node = some (root.node :: first) :=
      (wayTo_eq_some_iff ordered hr htop.node).mpr ⟨first, rfl, hfirst⟩
    refine ⟨(root.node :: first).map (Handle.mk · root.index) ++ passed.map (Handle.mk · h.index),
      ?_, ?_, ?_⟩
    · simp [arrived, pathDownTo_eq, found]
    · simp [Function.comp_def]
    · intro k hk
      rcases List.mem_append.mp hk with hk | hk
      · obtain ⟨n, -, rfl⟩ := List.mem_map.mp hk
        exact .inr rfl
      · exact .inl (passedIndex k hk)

/-- A handle that is not under the root has no path from it. -/
theorem pathFromRoot_eq_none (ordered : t.Ordered) (hr : root.Sound t) (hh : h.Sound t)
    (outside : h.node ∉ root.node.preorder) : pathFromRoot h root = none := by
  obtain ⟨climbed, top, climbs⟩ := hh.exists_climbs ordered root
  obtain ⟨passed, -, last, htop, -, -⟩ := climbs.descent ordered hr.node hh
  rw [climbs.pathFromRoot_eq ordered hh]
  by_cases arrived : top == root
  · rw [ordered.eq_of_place htop.node hr.node (beq_iff.mp arrived)] at last
    exact absurd last.mem_preorder outside
  · rw [if_neg arrived, pathDownTo_eq]
    cases found : wayTo top.place root.node with
    | none => rfl
    | some path =>
      obtain ⟨first, -, descent⟩ := (wayTo_eq_some_iff ordered hr.node htop.node).mp found
      exact absurd (descent.trans last).mem_preorder outside

/-- A path that is found leads down the way from the root. -/
theorem descent_of_pathFromRoot (ordered : t.Ordered) (hr : root.Sound t) (hh : h.Sound t)
    {path : List Handle} (found : pathFromRoot h root = some path) :
    ∃ way, Descent root.node way h.node ∧ path.map node = root.node :: way ∧
      ∀ k ∈ path, k.index = h.index ∨ k.index = root.index := by
  have inside : h.node ∈ root.node.preorder := by
    by_contra outside
    rw [pathFromRoot_eq_none ordered hr hh outside] at found
    cases found
  obtain ⟨way, descent⟩ := Descent.exists_of_mem inside
  obtain ⟨path', found', nodes, index⟩ := pathFromRoot_of_descent ordered hr.node hh descent
  obtain rfl := Option.some.inj (found.symm.trans found')
  exact ⟨way, descent, nodes, index⟩

/-- A path from the root leads down through the tree, each node on it once. -/
theorem pathFromRoot_sound (ordered : t.Ordered) (hr : root.Sound t) (hh : h.Sound t)
    {path : List Handle} (found : pathFromRoot h root = some path) :
    (∀ k ∈ path, k.Sound t) ∧ (path.map place).Nodup := by
  obtain ⟨way, descent, nodes, index⟩ := descent_of_pathFromRoot ordered hr hh found
  constructor
  · intro k hk
    have below : k.node ∈ root.node.preorder := by
      have onWay : k.node ∈ root.node :: way := nodes ▸ List.mem_map_of_mem hk
      exact ((descent.mem_iff (ordered.part hr.node)).mp onWay).1
    refine ⟨mem_preorder_trans hr.node below, ?_⟩
    rcases index k hk with same | same
    · exact same ▸ hh.index
    · exact same ▸ hr.index
  · have places : path.map place = (root.node :: way).map Tree.place := by
      rw [← nodes, List.map_map]
      rfl
    rw [places]
    exact (descent.ascending (ordered.part hr.node)).imp Nat.ne_of_lt

end Handle

end TreeQuery
