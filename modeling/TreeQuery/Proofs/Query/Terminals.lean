import TreeQuery.Proofs.Query.Answer
import TreeQuery.Proofs.Tree.Exposure
import TreeQuery.Proofs.Tree.Shift

namespace TreeQuery

namespace Handle

/-- The keys that stand for the value or the name of a node, whatever attributes it has. -/
def ownKeys : List String := ["value", "$value", "$name"]

theorem property?_of_not_own (h : Handle) {key : String} (other : key ∉ ownKeys) :
    h.property? key = h.attribute? key := by
  simp only [ownKeys, List.mem_cons, List.not_mem_nil, or_false, not_or] at other
  obtain ⟨value, value', name⟩ := other
  rw [property?, if_neg (by simp [value, value']), if_neg name]

end Handle

namespace Tree

/-- There is a handle for every node, in the same order. -/
theorem map_unplaced_handles (t : Tree Label) (top : Option Nat) :
    (t.handles top).map (fun h => h.node.unplaced) = t.preorder := by
  have nodes : t.placed.preorder.map unplaced = t.preorder := by
    have same := congrArg preorder (unplaced_placed t)
    rwa [unplaced, preorder_map] at same
  unfold handles
  dsimp only
  split <;> rw [List.map_map, ← nodes] <;> rfl

theorem toLabel_eq_label_unplaced (n : Tree Placed) : n.label.toLabel = n.unplaced.label := by
  cases n
  rfl

/-- The handles of a tree with its terminals exposed show the labels that the pass makes of the nodes. -/
theorem toLabel_handles_exposed {t n : Tree Label} {top : Option Nat} {h : Handle}
    (here : (n, h) ∈ t.preorder.zip (t.exposeTerminals.handles top)) :
    h.node.label.toLabel = exposedLabel n := by
  have nodes : t.preorder.map (relabel exposedLabel) =
      (t.exposeTerminals.handles top).map (fun h => h.node.unplaced) := by
    rw [map_unplaced_handles, exposeTerminals_eq, preorder_relabel]
  rw [← List.forall₂_eq_eq_eq, List.forall₂_map_left_iff, List.forall₂_map_right_iff] at nodes
  have same : n.relabel exposedLabel = h.node.unplaced := List.forall₂_zip nodes here
  rw [toLabel_eq_label_unplaced, ← same, label_relabel]

end Tree

theorem Predicate.holds_attribute_iff {functions : Functions} {h root : Handle}
    {candidates : List Handle} {name value : String} :
    (Predicate.holds functions (.attribute name value) h candidates root).value = true ↔
      h.property? name = some value := by
  rw [Predicate.holds_attribute, beq_iff_eq]

/-- With terminals exposed, a predicate on an attribute holds of a node exactly for the value of its first
terminal child of that name, if the node had no such attribute before and the name is none of the three
keys that stand for the node's own value and name. For these it still asks for the node's own. -/
theorem terminals_testable (t : Tree Label) (top : Option Nat) (n : Tree Label) (h : Handle)
    (here : (n, h) ∈ t.preorder.zip (t.exposeTerminals.handles top)) (name : String)
    (terminal : ∃ c ∈ n.children, c.isTerminal ∧ c.label.name = name)
    (new : n.label.attributes.get? name = none) (functions : Functions) (candidates : List Handle)
    (root : Handle) :
    (name ∉ Handle.ownKeys → ∃ value, Tree.terminalValue? n.children name = some value ∧
      ∀ v, (Predicate.holds functions (.attribute name v) h candidates root).value = true ↔
        v = value) ∧
    (name = "value" ∨ name = "$value" →
      ∀ v, (Predicate.holds functions (.attribute name v) h candidates root).value = true ↔
        n.label.value = some v) ∧
    (name = "$name" →
      ∀ v, (Predicate.holds functions (.attribute name v) h candidates root).value = true ↔
        n.label.name = v) := by
  have label := Tree.toLabel_handles_exposed here
  refine ⟨fun other => ?_, fun own v => ?_, fun own v => ?_⟩
  · obtain ⟨value, found⟩ := Option.isSome_iff_exists.mp (Tree.isSome_terminalValue?.mpr terminal)
    refine ⟨value, found, fun v => ?_⟩
    have stored : h.attribute? name = some value := by
      rw [Handle.attribute?, label, Tree.exposedLabel, Tree.get?_withTerminalValues, new, found]
      rfl
    rw [Predicate.holds_attribute_iff, h.property?_of_not_own other, stored, Option.some_inj]
    exact eq_comm
  · rw [Predicate.holds_attribute_iff, Handle.property?, if_pos own, Handle.value?, label]
    rfl
  · subst own
    have name : h.property? "$name" = some h.name := rfl
    rw [Predicate.holds_attribute_iff, name, Handle.name, label, Option.some_inj]
    rfl

theorem terminals_testable_second :
    let inner : Tree Label := ⟨{ name := "k", value := some "x" }, [.terminal "k" "y"]⟩
    let t : Tree Label := ⟨{ name := "a" }, [inner, .terminal "k" "1", .terminal "k" "2"]⟩
    let h : Handle := .plain t.exposeTerminals.placed
    ∀ v, (Predicate.holds Registry.builtins.functions (.attribute "k" v) h [] h).value = true ↔
      v = "1" := by
  intro inner t h v
  have here : (t, h) ∈ t.preorder.zip (t.exposeTerminals.handles none) := .head _
  obtain ⟨testable, -, -⟩ := terminals_testable t none t h here "k"
    ⟨.terminal "k" "1", by decide, rfl, rfl⟩ rfl Registry.builtins.functions [] h
  obtain ⟨value, found, holds⟩ := testable (by decide)
  have first : "1" = value := Option.some.inj found
  rw [holds v, first]

/-- A terminal named `value` cannot be tested through its parent: the predicate asks for the parent's own
value, and this one has none. -/
theorem terminal_named_value_untestable :
    let t : Tree Label := ⟨{ name := "a" }, [.terminal "value" "x"]⟩
    let h : Handle := .plain t.exposeTerminals.placed
    (t, h) ∈ t.preorder.zip (t.exposeTerminals.handles none) ∧
      t.label.attributes.get? "value" = none ∧
      Tree.terminalValue? t.children "value" = some "x" ∧
      h.attribute? "value" = some "x" ∧
      (Predicate.holds Registry.builtins.functions (.attribute "value" "x") h [] h).value = false :=
  ⟨.head _, rfl, rfl, rfl, rfl⟩

end TreeQuery
