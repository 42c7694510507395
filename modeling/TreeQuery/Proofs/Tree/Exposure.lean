import TreeQuery.Proofs.Tree.Relabel
import TreeQuery.Tree.Passes

namespace TreeQuery

namespace Tree

/-- The label of a node with the values of its terminals among the attributes. -/
def exposedLabel (t : Tree Label) : Label :=
  { t.label with attributes := withTerminalValues t.label.attributes t.children }

theorem exposeTerminals_eq (t : Tree Label) : t.exposeTerminals = t.relabel exposedLabel :=
  reviseLabels_eq exposedLabel t

theorem isTerminal_iff {t : Tree Label} :
    t.isTerminal ↔ (∃ value, t.label.value = some value) ∧ t.children = [] := by
  rw [isTerminal, Bool.and_eq_true, Option.isSome_iff_exists, List.isEmpty_iff]

theorem isTerminal_relabel_exposedLabel (t : Tree Label) :
    (t.relabel exposedLabel).isTerminal = t.isTerminal := by
  rw [isTerminal, isTerminal, label_relabel, children_relabel, List.isEmpty_map]
  rfl

/-- The value of the first terminal of this name among several nodes. -/
def terminalValue? (nodes : List (Tree Label)) (name : String) : Option String :=
  (nodes.find? fun n => n.isTerminal && n.label.name == name).bind (·.label.value)

theorem isSome_terminalValue? {nodes : List (Tree Label)} {name : String} :
    (terminalValue? nodes name).isSome ↔ ∃ n ∈ nodes, n.isTerminal ∧ n.label.name = name := by
  unfold terminalValue?
  constructor
  · intro found
    obtain ⟨n, hn, -⟩ := Option.bind_eq_some_iff.mp (Option.get_mem found)
    have named := List.find?_some hn
    exact ⟨n, List.mem_of_find?_eq_some hn, by simpa using named⟩
  · intro h
    obtain ⟨n, hn, terminal, named⟩ := h
    obtain ⟨m, hm⟩ := Option.isSome_iff_exists.mp
      (List.find?_isSome (p := fun n => n.isTerminal && n.label.name == name).mpr
        ⟨n, hn, by simp [terminal, named]⟩)
    have passes := List.find?_some hm
    obtain ⟨⟨value, valued⟩, -⟩ := isTerminal_iff.mp (Bool.and_eq_true_iff.mp passes).1
    simp [hm, valued]

/-- An attribute that is there stays, and each other comes from the first terminal of its name. -/
theorem get?_withTerminalValues (attributes : Dictionary String) (children : List (Tree Label))
    (key : String) :
    (withTerminalValues attributes children).get? key =
      (attributes.get? key).or (terminalValue? children key) := by
  unfold terminalValue?
  induction children generalizing attributes with
  | nil => simp [withTerminalValues]
  | cons c cs ih =>
    rw [withTerminalValues, List.foldl_cons, ← withTerminalValues, ih]
    by_cases terminal : c.isTerminal
    · obtain ⟨⟨value, valued⟩, -⟩ := isTerminal_iff.mp terminal
      simp only [terminal, valued, Dictionary.get?_insertNew]
      by_cases named : c.label.name = key
      · subst named
        cases attributes.get? c.label.name <;> simp [terminal, valued]
      · simp [named]
    · simp [terminal]

/-- The keys are the old ones and the names of the terminals. -/
theorem contains_withTerminalValues (attributes : Dictionary String) (children : List (Tree Label))
    (key : String) :
    (withTerminalValues attributes children).contains key ↔
      attributes.contains key ∨ ∃ c ∈ children, c.isTerminal ∧ c.label.name = key := by
  rw [Dictionary.contains, get?_withTerminalValues, Option.isSome_or, Bool.or_eq_true,
    isSome_terminalValue?]
  rfl

/-- After the pass every terminal's name is an attribute of its parent. -/
theorem contains_name_of_terminal {t n c : Tree Label} (hn : n ∈ t.exposeTerminals.preorder)
    (hc : c ∈ n.children) (terminal : c.isTerminal) : n.label.attributes.contains c.label.name := by
  rw [exposeTerminals_eq, preorder_relabel] at hn
  obtain ⟨m, -, rfl⟩ := List.mem_map.mp hn
  rw [children_relabel] at hc
  obtain ⟨d, hd, rfl⟩ := List.mem_map.mp hc
  rw [isTerminal_relabel_exposedLabel] at terminal
  rw [label_relabel, label_relabel]
  exact (contains_withTerminalValues _ _ _).mpr (.inr ⟨d, hd, terminal, rfl⟩)

/-- What terminals there are, and with which values, is the same after the pass. -/
theorem terminalValue?_exposed (nodes : List (Tree Label)) (name : String) :
    terminalValue? (nodes.map (relabel exposedLabel)) name = terminalValue? nodes name := by
  rw [terminalValue?, List.find?_map, terminalValue?, Option.bind_map]
  simp only [Function.comp_def, isTerminal_relabel_exposedLabel, label_relabel]
  rfl

theorem exposedLabel_relabel (n : Tree Label) :
    exposedLabel (n.relabel exposedLabel) = exposedLabel n := by
  have attributes : (exposedLabel (n.relabel exposedLabel)).attributes =
      (exposedLabel n).attributes := by
    apply Dictionary.ext_get?
    intro key
    simp only [exposedLabel, label_relabel, children_relabel, get?_withTerminalValues,
      terminalValue?_exposed, Option.or_assoc, Option.or_self]
  calc exposedLabel (n.relabel exposedLabel)
      = { (n.relabel exposedLabel).label with
          attributes := (exposedLabel (n.relabel exposedLabel)).attributes } := rfl
    _ = { exposedLabel n with attributes := (exposedLabel n).attributes } := by
      rw [attributes, label_relabel]
    _ = exposedLabel n := rfl

/-- After the pass the attributes of a node are those it had, and for every other name that some
terminal among its children has, the value of the first of these. Nothing else of the tree changes, and
a second pass finds nothing to add. -/
theorem exposeTerminals_at_each_node (t : Tree Label) :
    t.exposeTerminals = t.relabel exposedLabel ∧
    (∀ n : Tree Label,
      (exposedLabel n).name = n.label.name ∧ (exposedLabel n).value = n.label.value ∧
      (exposedLabel n).offset = n.label.offset ∧
      ∀ key, (exposedLabel n).attributes.get? key =
        (n.label.attributes.get? key).or (terminalValue? n.children key)) ∧
    t.exposeTerminals.exposeTerminals = t.exposeTerminals := by
  refine ⟨exposeTerminals_eq t, fun n => ⟨rfl, rfl, rfl, get?_withTerminalValues _ _⟩, ?_⟩
  rw [exposeTerminals_eq, exposeTerminals_eq, relabel_relabel]
  exact congrArg (relabel · t) (funext exposedLabel_relabel)

-- A child without a value and one with children of its own are no terminals, whatever their names.
example :
    let inner : Tree Label := ⟨{ name := "k", value := some "x" }, [.terminal "k" "y"]⟩
    let t : Tree Label := ⟨{ name := "a", attributes := .ofList [("old", "o")] },
      [inner, .named "k", .terminal "k" "1", .terminal "k" "2", .terminal "old" "n"]⟩
    t.exposeTerminals.label.attributes.entries = [("k", "1"), ("old", "o")] := by
  decide

end Tree

end TreeQuery
