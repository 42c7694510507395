import TreeQuery.Proofs.Json.TreeForm
import TreeQuery.Proofs.Tree.Exposure

namespace TreeQuery.Tree

open TreeForm (Unreserved)

theorem ofJson_true_eq_ok_iff {text : String} {t : Tree Label} :
    ofJson text true = .ok t ↔ ∃ plain, ofJson text false = .ok plain ∧ plain.exposeTerminals = t := by
  unfold ofJson
  split
  rename_i v trailing read
  cases TreeForm.node v with
  | error problem => simp
  | ok u => cases trailing <;> simp

/-- A tree that is read can be told from its JSON after the pass just if no terminal in it has the name
of a reserved key. -/
theorem Describable.exposeTerminals_iff {t : Tree Label} (h : t.Describable) :
    t.exposeTerminals.Describable ↔
      ∀ n ∈ t.exposeTerminals.preorder, ∀ c ∈ n.children, c.isTerminal →
        c.label.name ∉ TreeForm.reservedKeys := by
  constructor
  · intro whole n hn c hc terminal
    have key := contains_name_of_terminal hn hc terminal
    exact whole.free n hn c.label.name ((Dictionary.mem_keys_iff _ _).mpr key)
  · intro free
    rw [exposeTerminals_eq] at free ⊢
    refine ⟨Nat.le_trans (height_relabel_le exposedLabel t) h.low, fun n hn key hk => ?_⟩
    rw [preorder_relabel] at hn free
    obtain ⟨m, hm, rfl⟩ := List.mem_map.mp hn
    rw [label_relabel, Dictionary.mem_keys_iff] at hk
    rcases (contains_withTerminalValues _ _ _).mp hk with old | ⟨c, hc, terminal, rfl⟩
    · exact h.free m hm key ((Dictionary.mem_keys_iff _ _).mpr old)
    · have below : c.relabel exposedLabel ∈ (m.relabel exposedLabel).children := by
        rw [children_relabel]
        exact List.mem_map_of_mem hc
      have named := free _ hn _ below (by rwa [isTerminal_relabel_exposedLabel])
      rwa [label_relabel] at named

/-- A tree whose terminals have become attributes is read back from its JSON just if no terminal below
another node has the name of a reserved key. -/
theorem ofJson_toJson_exposed (text : String) (t : Tree Label) (h : ofJson text true = .ok t) :
    ofJson t.toJson false = .ok t ↔
      ∀ n ∈ t.preorder, ∀ c ∈ n.children, c.isTerminal → c.label.name ∉ TreeForm.reservedKeys := by
  obtain ⟨plain, read, rfl⟩ := ofJson_true_eq_ok_iff.mp h
  rw [← (describable_of_ofJson read).exposeTerminals_iff]
  exact ⟨describable_of_ofJson, ofJson_toJson⟩

theorem ofJson_toJson_exposed_kind :
    let text := "\x7b\"$name\":\"a\",\"$children\":[\x7b\"$name\":\"kind\",\"$value\":\"b\"\x7d]\x7d"
    let t : Tree Label := ⟨⟨"a", none, none, .ofList [("kind", "b")]⟩, [terminal "kind" "b"]⟩
    ofJson text true = .ok t ∧ ofJson t.toJson false = .ok t := by
  intro text t
  have read : ofJson text true = .ok t := by decide +kernel
  exact ⟨read, (ofJson_toJson_exposed text t read).mpr (by decide)⟩

/-- A terminal named `$name` makes its parent's name ambiguous, and one named `$value` gives its parent
a value when the tree is read back. -/
theorem ofJson_toJson_exposed_reserved :
    let text (name : String) :=
      "\x7b\"$name\":\"a\",\"$children\":[\x7b\"$name\":\"" ++ name ++ "\",\"$value\":\"b\"\x7d]\x7d"
    let read (name : String) : Tree Label :=
      ⟨⟨"a", none, none, .ofList [(name, "b")]⟩, [terminal name "b"]⟩
    ofJson (text "$name") true = .ok (read "$name") ∧
      ofJson (read "$name").toJson false = .error (.duplicateField "$name") ∧
    ofJson (text "$value") true = .ok (read "$value") ∧
      ofJson (read "$value").toJson false = .ok ⟨⟨"a", some "b", none, {}⟩, [terminal "$value" "b"]⟩ := by
  decide +kernel

end TreeQuery.Tree
