import TreeQuery.Proofs.Query.Bisimulation
import TreeQuery.Proofs.Query.Local
import TreeQuery.Tree.Passes

namespace TreeQuery

open List (Forall₂)

/-- A label without its offset and its attributes. -/
def Label.bare (label : Label) : Label := { label with offset := none, attributes := {} }

def Placed.bare (label : Placed) : Placed := { label.toLabel.bare with place := label.place }

/-- A label and what is left of it. -/
def Label.Bared (a b : Label) : Prop := b = a.bare

theorem Placed.alike_bare (a : Placed) : Placed.Alike Label.Bared a a.bare := ⟨rfl, rfl⟩

theorem Placed.Alike.eq_bare {a b : Placed} (h : Placed.Alike Label.Bared a b) : b = a.bare := by
  obtain ⟨b, place⟩ := b
  obtain ⟨rfl, rfl⟩ := h
  rfl

namespace Tree

theorem stripPositions_eq (t : Tree Label) : t.stripPositions = t.map Label.bare := by
  have relabeled : t.stripPositions = t.relabel fun n => n.label.bare := reviseLabels_eq _ t
  rw [relabeled]
  exact (alike_relabel (R := Label.Bared) (fun _ => rfl) t).eq_map fun _ _ => id

/-- Numbering the nodes does not mind what they carry. -/
theorem placed_map_bare (t : Tree Label) : (t.map Label.bare).placed = t.placed.map Placed.bare := by
  have alike : t.Alike Label.Bared (t.map Label.bare) :=
    alike_map (R := Label.Bared) (fun _ => rfl) t
  exact alike.placed.eq_map fun _ _ same => same.eq_bare

end Tree

namespace Handle

/-- The same node of the tree without offsets and attributes. -/
def bare (h : Handle) : Handle :=
  ⟨h.node.map Placed.bare, h.index.map fun index => .build (index.top.map Placed.bare)⟩

/-- Handles whose index, if they have one, is that of its topmost node. -/
def Indexed (h : Handle) : Prop := ∀ index ∈ h.index, index = .build index.top

variable {h : Handle}

theorem place_bare (h : Handle) : h.bare.place = h.place := by
  obtain ⟨⟨label, children⟩, index⟩ := h
  rfl

theorem name_bare (h : Handle) : h.bare.name = h.name := by
  obtain ⟨⟨label, children⟩, index⟩ := h
  rfl

theorem value?_bare (h : Handle) : h.bare.value? = h.value? := by
  obtain ⟨⟨label, children⟩, index⟩ := h
  rfl

theorem children_bare (h : Handle) : h.bare.children = h.children.map bare := by
  rw [children_eq, children_eq, bare, Tree.children_map, List.map_map, List.map_map]
  rfl

theorem isTerminal_bare (h : Handle) : h.bare.isTerminal = h.isTerminal := by
  rw [isTerminal, isTerminal, value?_bare, children_bare, List.isEmpty_map]

/-- Nodes that are alike have handles that are, in the index of a tree and in that of the bare one. -/
theorem rel_handle_bare {top : Tree Placed} {n m : Option (Tree Placed)}
    (alike : Option.Rel (Tree.Alike (Placed.Alike Label.Bared)) n m) :
    Option.Rel (fun h k => h.Indexed ∧ h.bare = k) (n.map (ParentIndex.build top).handle)
      (m.map (ParentIndex.build (top.map Placed.bare)).handle) := by
  cases alike with
  | none => exact .none
  | some same =>
    rw [same.eq_map fun _ _ same => same.eq_bare]
    refine .some ⟨?_, rfl⟩
    rintro index ⟨⟩
    rfl

/-- The index of the bare tree leads to the bare parents. -/
theorem bisimulation_bare : Bisimulation fun h k => h.Indexed ∧ h.bare = k where
  place := by
    rintro h k ⟨-, rfl⟩
    exact h.place_bare.symm
  children := by
    rintro h k ⟨indexed, rfl⟩
    rw [children_bare, List.forall₂_map_right_iff, List.forall₂_same, children_eq]
    intro c hc
    obtain ⟨n, -, rfl⟩ := List.mem_map.mp hc
    exact ⟨indexed, rfl⟩
  parent? := by
    rintro ⟨n, index⟩ k ⟨indexed, rfl⟩
    cases index with
    | none => exact .none
    | some index =>
      -- The bare tree is alike, so its index leads from the same place to the bare parent.
      obtain ⟨top, rfl⟩ : ∃ top, index = .build top := ⟨index.top, indexed index rfl⟩
      have parents := ParentIndex.alike_build (Tree.alike_map Placed.alike_bare top) n
        (n.map Placed.bare) (place_bare ⟨n, none⟩).symm
      rw [bare, Handle.parent?, Handle.parent?]
      dsimp only [Option.map_some, Option.bind_some]
      exact rel_handle_bare parents

theorem indexed_handles {t : Tree Label} {top : Option Nat} (hh : h ∈ t.handles top) :
    h.Indexed := by
  unfold Tree.handles at hh
  dsimp only at hh
  split at hh
  · obtain ⟨n, -, rfl⟩ := List.mem_map.mp hh
    rintro index ⟨⟩
    rfl
  · obtain ⟨n, -, rfl⟩ := List.mem_map.mp hh
    exact nofun

theorem handles_map_bare (t : Tree Label) (top : Option Nat) :
    (t.map Label.bare).handles top = (t.handles top).map bare := by
  have found : top.bind (fun place => (t.map Label.bare).placed.preorder[place]?) =
      (top.bind fun place => t.placed.preorder[place]?).map (Tree.map Placed.bare) := by
    rw [Tree.placed_map_bare, Tree.preorder_map, Option.map_bind]
    congr 1
    funext place
    exact List.getElem?_map
  unfold Tree.handles
  dsimp only
  rw [found, Tree.placed_map_bare, Tree.preorder_map]
  cases top.bind fun place => t.placed.preorder[place]? with
  | none =>
    dsimp only [Option.map_none]
    rw [List.map_map, List.map_map]
    rfl
  | some node =>
    dsimp only [Option.map_some]
    rw [List.map_map, List.map_map]
    rfl

theorem handles_bare (t : Tree Label) (top : Option Nat) :
    Forall₂ (fun h k => h.Indexed ∧ h.bare = k) (t.handles top) (t.stripPositions.handles top) := by
  rw [Tree.stripPositions_eq, handles_map_bare, List.forall₂_map_right_iff, List.forall₂_same]
  exact fun h hh => ⟨indexed_handles hh, rfl⟩

end Handle

/-- The attributes that predicates ask for are the value and the name of a node. -/
def ownProperties : Criteria where
  predicate
    | .attribute name _ => name ∈ ["value", "$value", "$name"]
    | _ => true

/-- Answers stay as they are in a bare tree, if they do not depend on stored attributes. -/
def bareTransfer :
    Transfer ownProperties Registry.builtins.functions Registry.builtins.functions where
  move := Handle.bare
  scope _ root h := root.Indexed ∧ h.Indexed
  place h k := by rw [Handle.place_bare, Handle.place_bare]
  name := Handle.name_bare
  property h name value own := by
    obtain own | own | own : name = "value" ∨ name = "$value" ∨ name = "$name" := by
      simpa [ownProperties] using own
    · rw [Handle.property?, Handle.property?, if_pos (.inl own), if_pos (.inl own), h.value?_bare]
    · rw [Handle.property?, Handle.property?, if_pos (.inr own), if_pos (.inr own), h.value?_bare]
    · rw [own]
      exact congrArg some h.name_bare
  follow inside root h axis test ps _ start := by
    have reached := Handle.bisimulation_bare.follow axis ⟨start.2, rfl⟩ ⟨start.1, rfl⟩
    obtain ⟨indexed, moved⟩ := (List.forall₂_and_left ..).mp reached
    rw [← List.forall₂_map_left_iff, List.forall₂_eq_eq_eq] at moved
    exact ⟨moved.symm, fun k hk => ⟨start.1, indexed k hk⟩⟩
  enter _ root h start := ⟨start.2, start.2⟩
  known _ _ := rfl
  answer _ root h candidates name _ _ _ :=
    Registry.answer_standard Handle.bare
      (fun h k => by rw [Handle.place_bare, Handle.place_bare]) Handle.isTerminal_bare true name h
      candidates root _

/-- Neither offsets nor stored attributes change an answer: without them an expression that asks for
no stored attribute has the same outcome, with matches at the same places in the same order. -/
theorem offsets_and_attributes_unseen (t : Tree Label) (top : Option Nat) (e : Expr)
    (own : e.meets ownProperties false) (root root' start start' : Handle)
    (hr : (root, root') ∈ (t.handles top).zip (t.stripPositions.handles top))
    (hs : (start, start') ∈ (t.handles top).zip (t.stripPositions.handles top)) :
    (e.evaluateFrom .builtins root' start').value.map (List.map Handle.place) =
      (e.evaluateFrom .builtins root start).value.map (List.map Handle.place) := by
  obtain ⟨rootIndexed, rfl⟩ := List.forall₂_zip (Handle.handles_bare t top) hr
  obtain ⟨startIndexed, rfl⟩ := List.forall₂_zip (Handle.handles_bare t top) hs
  have moved : (e.evaluateFrom .builtins root.bare start.bare).value =
      (e.evaluateFrom .builtins root start).value.map (List.map Handle.bare) :=
    bareTransfer.evaluateWith own ⟨rootIndexed, startIndexed⟩
  rw [moved]
  cases (e.evaluateFrom .builtins root start).value with
  | error error => rfl
  | ok found =>
    refine congrArg Except.ok ?_
    rw [List.map_map]
    exact List.map_congr_left fun h _ => h.place_bare

theorem offsets_and_attributes_unseen_shadowed :
    let t : Tree Label := ⟨{ name := "a" },
      [((Tree.terminal "b" "x").withAttribute "$value" "y").withOffset 3, .terminal "b" "y"]⟩
    let e : Expr := .path false [.mk .child (.named "b") [.attribute "$value" "y"]]
    let root : Handle := .plain t.placed
    let root' : Handle := .plain t.stripPositions.placed
    e.meets ownProperties false ∧
      (e.evaluateFrom .builtins root root).value.map (List.map Handle.place) = .ok [2] ∧
      (e.evaluateFrom .builtins root' root').value.map (List.map Handle.place) = .ok [2] := by
  intro t e root root'
  have own : e.meets ownProperties false := by decide
  have first : (root, root') ∈ (t.handles none).zip (t.stripPositions.handles none) := .head _
  have found : (e.evaluateFrom .builtins root root).value.map (List.map Handle.place) = .ok [2] := rfl
  exact ⟨own, found, (offsets_and_attributes_unseen t none e own root root' root root' first first).trans
    found⟩

end TreeQuery
