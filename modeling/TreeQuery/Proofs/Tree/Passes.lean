import TreeQuery.Proofs.Query.Bare
import TreeQuery.Proofs.Tree.Exposure
import TreeQuery.Proofs.Tree.Fill

namespace TreeQuery.Tree

section

variable {α β γ : Type}

theorem map_map (f : α → β) (g : β → γ) (t : Tree α) : (t.map f).map g = t.map (g ∘ f) := by
  induction t using byChildren with
  | step t ih =>
    refine eq_of_parts ?_ ?_
    · rw [label_map, label_map, label_map, Function.comp_apply]
    · rw [children_map, children_map, children_map, List.map_map]
      exact List.map_congr_left ih

/-- What a change of labels leaves to be seen, if `g` sees of every label what it saw before. -/
theorem map_relabel {f : Tree α → α} {g : α → β} (same : ∀ n, g (f n) = g n.label) (t : Tree α) :
    (t.relabel f).map g = t.map g := by
  induction t using byChildren with
  | step t ih =>
    refine eq_of_parts ?_ ?_
    · rw [label_map, label_map, label_relabel, same]
    · rw [children_map, children_map, children_relabel, List.map_map]
      exact List.map_congr_left ih

end

theorem filledLabel_withAttributes (source : List Char) (label : Label)
    (attributes : Dictionary String) (stop : Option Nat) :
    filledLabel source { label with attributes } stop =
      { filledLabel source label stop with attributes } := by
  obtain ⟨name, value, offset, old⟩ := label
  cases value <;> cases offset <;> cases stop <;> rfl

/-- Where terminals end, and which of them overflow, does not depend on attributes. -/
theorem terminalEnds_exposed (n : Tree Label) :
    (n.relabel exposedLabel).terminalEnds = n.terminalEnds := by
  apply terminalEnds_relabel
  exact fun _ _ => rfl

theorem filterMap_overflow?_exposed (t : Tree Label) :
    (t.relabel exposedLabel).preorder.filterMap overflow? = t.preorder.filterMap overflow? := by
  rw [preorder_relabel, List.filterMap_map]
  refine List.filterMap_congr fun n _ => ?_
  obtain ⟨label, _ | ⟨child, more⟩⟩ := n <;> rfl

theorem filled_exposed (source : String) (n : Tree Label) :
    filled source (n.relabel exposedLabel) =
      { filled source n with attributes := (exposedLabel n).attributes } := by
  by_cases childless : n.children = []
  · rw [filled_childless (by simp [childless]), label_relabel, filled_childless childless]
    rfl
  · rw [filled_parent (by simp [childless]), label_relabel, terminalEnds_exposed,
      filled_parent childless]
    exact filledLabel_withAttributes source.toList n.label _ n.terminalEnds.max?

theorem isTerminal_filled (source : String) (n : Tree Label) :
    (n.relabel (filled source)).isTerminal = n.isTerminal := by
  rw [isTerminal, isTerminal, label_relabel, children_relabel, List.isEmpty_map]
  by_cases childless : n.children = []
  · rw [filled_childless childless]
  · have parent : n.children.isEmpty = false := by simpa using childless
    rw [parent, Bool.and_false, Bool.and_false]

theorem terminalValue?_filled (source : String) (nodes : List (Tree Label)) (name : String) :
    terminalValue? (nodes.map (relabel (filled source))) name = terminalValue? nodes name := by
  have named (n : Tree Label) : (filled source n).name = n.label.name := (filled_keeps source n).1
  rw [terminalValue?, List.find?_map, terminalValue?, Option.bind_map]
  simp only [Function.comp_def, isTerminal_filled, label_relabel, named]
  refine Option.bind_congr fun n found => ?_
  have passes := List.find?_some found
  have childless := (isTerminal_iff.mp (Bool.and_eq_true_iff.mp passes).1).2
  rw [filled_childless childless]

theorem exposedLabel_filled (source : String) (n : Tree Label) :
    exposedLabel (n.relabel (filled source)) =
      { filled source n with attributes := (exposedLabel n).attributes } := by
  have attributes : (exposedLabel (n.relabel (filled source))).attributes =
      (exposedLabel n).attributes := by
    apply Dictionary.ext_get?
    intro key
    simp only [exposedLabel, label_relabel, children_relabel, get?_withTerminalValues,
      terminalValue?_filled, (filled_keeps source n).2.2]
  calc exposedLabel (n.relabel (filled source))
      = { (n.relabel (filled source)).label with
          attributes := (exposedLabel (n.relabel (filled source))).attributes } := rfl
    _ = { filled source n with attributes := (exposedLabel n).attributes } := by
      rw [attributes, label_relabel]

/-- It does not matter whether texts are filled in before or after terminals are exposed; if filling in
fails, it fails alike. Without offsets and attributes a tree is the same whether its terminals had been
exposed or not, and has no more of them to lose. -/
theorem passes_commute (t : Tree Label) :
    (∀ source, t.exposeTerminals.fillValues source = (t.fillValues source).map exposeTerminals) ∧
    t.exposeTerminals.stripPositions = t.stripPositions ∧
    t.stripPositions.stripPositions = t.stripPositions := by
  refine ⟨fun source => ?_, ?_, ?_⟩
  · have both : (t.relabel exposedLabel).relabel (filled source) =
        (t.relabel (filled source)).relabel exposedLabel := by
      rw [relabel_relabel, relabel_relabel]
      refine congrArg (relabel · t) (funext fun n => ?_)
      rw [filled_exposed, exposedLabel_filled]
    rw [exposeTerminals_eq, fillValues_eq, fillValues_eq, filterMap_overflow?_exposed, both,
      ← exposeTerminals_eq]
    cases t.preorder.filterMap overflow? <;> rfl
  · rw [exposeTerminals_eq, stripPositions_eq, stripPositions_eq]
    apply map_relabel
    exact fun _ => rfl
  · rw [stripPositions_eq, stripPositions_eq, map_map]
    rfl

-- A value that is filled in makes no terminal, so it becomes no attribute in either order.
example :
    let inner : Tree Label := ⟨{ name := "k", offset := some 0 }, [(terminal "b" "x").withOffset 0]⟩
    let t : Tree Label := ⟨{ name := "a" }, [inner]⟩
    (t.fillValues "x").map exposeTerminals = .ok ⟨{ name := "a" },
      [⟨{ name := "k", value := some "x", offset := some 0, attributes := .ofList [("b", "x")] },
        [(terminal "b" "x").withOffset 0]⟩]⟩ := by
  decide

end TreeQuery.Tree
