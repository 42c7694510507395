import TreeQuery.Proofs.Json.Fields
import TreeQuery.Proofs.Json.ReadBack
import TreeQuery.Proofs.Tree.Order

namespace TreeQuery.TreeForm

open Json (Value Member Fault Number)

/-- The member for the children, if there are any. -/
def childrenMember : List Value → List Member
  | [] => []
  | v :: vs => [.mk childrenKey (.array (v :: vs) none)]

/-- The members of a node's object: name, children, value and offset as far as they are there, and
then the attributes. -/
def membersOf (label : Label) (children : List Value) : List Member :=
  .mk nameKey (.text label.name) ::
    (childrenMember children ++ optionalMember valueKey .text label.value ++
    optionalMember offsetKey (fun n => .number (.natural n)) label.offset ++
    label.attributes.entries.map fun (key, text) => .mk key (.text text))

theorem ofTrees_eq_map (ts : List (Tree Label)) : ofTrees ts = ts.map ofTree := by
  induction ts with
  | nil => rfl
  | cons t ts ih => rw [ofTrees, ih, List.map_cons]

theorem ofTree_eq (t : Tree Label) :
    ofTree t = .object (membersOf t.label (t.children.map ofTree)) none := by
  obtain ⟨label, children⟩ := t
  cases children with
  | nil => rfl
  | cons child more =>
    rw [ofTree, ofTrees_eq_map]
    rfl

theorem nodes_map_ofTree {ts : List (Tree Label)} (h : ∀ t ∈ ts, node (ofTree t) = .ok t) :
    nodes (ts.map ofTree) = .ok ts := by
  induction ts with
  | nil => rw [List.map_nil, nodes]
  | cons t ts ih =>
    obtain ⟨first, others⟩ := List.forall_mem_cons.mp h
    rw [List.map_cons, nodes, first, ih others]

/-- A member that is left out changes nothing. -/
theorem withMembers_optionalMember {α : Type} {key : String} (form : α → Value) {fields : Fields}
    (next : Option α → Fields) (absent : next none = fields)
    (present : ∀ a, fields.Takes (.mk key (form a)) (next (some a))) (o : Option α) :
    withMembers fields (optionalMember key form o) = .ok (next o) := by
  cases o with
  | none => rw [optionalMember, withMembers, absent]
  | some a => exact withMembers_cons_iff.mpr ⟨_, present a, withMembers.eq_1 _⟩

theorem withMembers_attributes (fields : Fields) {entries : List (String × String)}
    (free : ∀ entry ∈ entries, entry.1 ∉ reservedKeys) :
    withMembers fields (entries.map fun (key, text) => .mk key (.text text)) =
      .ok { fields with
        attributes :=
          entries.foldl (fun d entry => d.insert entry.1 entry.2) fields.attributes } := by
  induction entries generalizing fields with
  | nil => rw [List.map_nil, withMembers, List.foldl_nil]
  | cons entry entries ih =>
    obtain ⟨first, others⟩ := List.forall_mem_cons.mp free
    exact withMembers_cons_iff.mpr ⟨_, .extra first rfl, ih _ others⟩

theorem withMembers_children (fields : Fields) {children : List Value} {ts : List (Tree Label)}
    (read : nodes children = .ok ts) (unread : fields.children = none) :
    ∃ found, withMembers fields (childrenMember children) = .ok { fields with children := found } ∧
      found.getD [] = ts := by
  cases children with
  | nil =>
    rw [nodes] at read
    cases read
    exact ⟨none, by rw [childrenMember, withMembers, ← unread], rfl⟩
  | cons v vs =>
    have array := asChildren_eq_ok_iff.mpr ⟨_, rfl, read⟩
    exact ⟨some ts, withMembers_cons_iff.mpr ⟨_, .children unread array, withMembers.eq_1 _⟩, rfl⟩

theorem withMembers_membersOf {children : List Value} {t : Tree Label}
    (read : nodes children = .ok t.children) (free : Unreserved t.label) :
    ∃ fields, withMembers {} (membersOf t.label children) = .ok fields ∧ fields.node = .ok t := by
  obtain ⟨⟨name, value, offset, attributes⟩, below⟩ := t
  have keys : ∀ entry ∈ attributes.entries, entry.1 ∉ reservedKeys := fun entry h =>
    free entry.1 (List.mem_map_of_mem h)
  obtain ⟨found, readChildren, whole⟩ := withMembers_children { name := name } read rfl
  have readValue := withMembers_optionalMember .text
    (fun value => { name := name, children := found, value := value.map some }) rfl
    (fun _ => .value rfl rfl) value
  have readOffset := withMembers_optionalMember (fun n => .number (.natural n))
    (fun offset => { name, children := found, value := value.map some, offset := offset.map some })
    rfl (fun _ => .offset rfl rfl) offset
  have front := withMembers_append_iff.mpr ⟨_, readChildren, readValue⟩
  have middle := withMembers_append_iff.mpr ⟨_, front, readOffset⟩
  have back := withMembers_append_iff.mpr ⟨_, middle, withMembers_attributes _ keys⟩
  refine ⟨_, withMembers_cons_iff.mpr ⟨_, .name rfl rfl, back⟩, ?_⟩
  have same := Dictionary.ofList_entries attributes
  rw [Dictionary.ofList] at same
  cases value <;> cases offset <;> simp [Fields.node, whole] <;> exact same

theorem node_ofTree {t : Tree Label} (free : ∀ n ∈ t.preorder, Unreserved n.label) :
    node (ofTree t) = .ok t := by
  induction t using Tree.byChildren with
  | step t ih =>
    have children := nodes_map_ofTree fun c hc =>
      ih c hc fun n hn => free n (Tree.mem_preorder_iff.mpr (.inr ⟨c, hc, hn⟩))
    obtain ⟨fields, read, node⟩ := withMembers_membersOf children (free t t.self_mem_preorder)
    rw [ofTree_eq]
    exact node_eq_ok_iff.mpr ⟨_, _, rfl, read, node⟩

theorem value_of_mem_optionalMember {α : Type} {key : String} {form : α → Value} {o : Option α}
    {m : Member} (h : m ∈ optionalMember key form o) : ∃ a, m.value = form a := by
  cases o with
  | none => cases h
  | some a => exact ⟨a, congrArg Member.value (List.mem_singleton.mp h)⟩

theorem mem_membersOf {label : Label} {children : List Value} {m : Member}
    (h : m ∈ membersOf label children) :
    (∃ s, m.value = .text s) ∨ (∃ n, m.value = .number (.natural n)) ∨
      (children ≠ [] ∧ m.value = .array children none) := by
  simp only [membersOf, List.mem_cons, List.mem_append, List.mem_map] at h
  rcases h with rfl | ((h | h) | h) | ⟨entry, -, rfl⟩
  · exact .inl ⟨_, rfl⟩
  · cases children with
    | nil => cases h
    | cons v vs =>
      obtain rfl := List.mem_singleton.mp h
      exact .inr (.inr ⟨List.cons_ne_nil _ _, rfl⟩)
  · exact .inl (value_of_mem_optionalMember h)
  · exact .inr (.inl (value_of_mem_optionalMember h))
  · exact .inl ⟨_, rfl⟩

theorem exact_ofTree (t : Tree Label) : (ofTree t).Exact := by
  induction t using Tree.byChildren with
  | step t ih =>
    rw [ofTree_eq]
    refine Value.membersExact_iff.mpr fun m hm => ?_
    rcases mem_membersOf hm with ⟨s, text⟩ | ⟨n, number⟩ | ⟨-, array⟩
    · rw [text]
      trivial
    · rw [number]
      trivial
    · rw [array]
      exact Value.allExact_iff.mpr (List.forall_mem_map.mpr ih)

/-- Every level of a tree but the last makes two. -/
theorem nesting_ofTree_lt (t : Tree Label) : (ofTree t).nesting < 2 * t.height := by
  induction t using Tree.byChildren with
  | step t ih =>
    have low := Tree.heights_le_iff.mp (Nat.le_refl (Tree.heights t.children))
    have below : ∀ m ∈ membersOf t.label (t.children.map ofTree),
        m.value.nesting ≤ 2 * Tree.heights t.children := by
      intro m hm
      rcases mem_membersOf hm with ⟨s, text⟩ | ⟨n, number⟩ | ⟨some, array⟩
      · rw [text]
        exact Nat.zero_le _
      · rw [number]
        exact Nat.zero_le _
      · have each : ∀ v ∈ t.children.map ofTree, v.nesting ≤ 2 * Tree.heights t.children - 1 :=
          List.forall_mem_map.mpr fun c hc => by
            have := ih c hc
            have := low c hc
            omega
        -- an array is there only for children, so these make up a level at least
        obtain ⟨v, hv⟩ := List.exists_mem_of_ne_nil _ some
        obtain ⟨c, hc, rfl⟩ := List.mem_map.mp hv
        have := ih c hc
        have := low c hc
        have := Value.nesting_array_le each none
        rw [array]
        omega
    have := Value.nesting_object_le below none
    rw [ofTree_eq, Tree.height_eq]
    omega

theorem unreserved_of_node {v : Value} {t : Tree Label} (h : node v = .ok t) :
    ∀ n ∈ t.preorder, Unreserved n.label := by
  induction t using Tree.byChildren generalizing v with
  | step t ih =>
    obtain ⟨free, members, -, below⟩ := node_spec h
    intro n hn
    rcases Tree.mem_preorder_iff.mp hn with rfl | ⟨c, hc, hn⟩
    · exact free
    · rcases below with none | ⟨m, -, items, -, read⟩
      · rw [none] at hc
        cases hc
      · obtain ⟨w, -, child⟩ := exists_node_of_nodes read c hc
        exact ih c hc child n hn

/-- A tree takes up two levels for each of its own but the last. -/
theorem height_of_node_le {v : Value} {t : Tree Label} (h : node v = .ok t) :
    2 * t.height ≤ v.nesting + 1 := by
  induction t using Tree.byChildren generalizing v with
  | step t ih =>
    obtain ⟨-, members, rfl, below⟩ := node_spec h
    rw [Tree.height_eq, Value.nesting]
    rcases below with none | ⟨m, hm, items, array, read⟩
    · rw [none, Tree.heights]
      omega
    · have inner : Value.nesting m.value = 1 + Value.nestings items := by rw [array, Value.nesting]
      have outer := Value.nesting_le_memberNestings hm
      have low : Tree.heights t.children ≤ (Value.nestings items + 1) / 2 :=
        Tree.heights_le_iff.mpr fun c hc => by
          obtain ⟨w, hw, child⟩ := exists_node_of_nodes read c hc
          have := ih c hc child
          have := Value.nesting_le_nestings hw
          omega
      omega

end TreeQuery.TreeForm

namespace TreeQuery.Tree

open TreeForm (Unreserved)

/-- Whether a tree can be told from its JSON: it has at most 64 levels, and none of its attributes
has a key that stands for something else. -/
structure Describable (t : Tree Label) : Prop where
  low : t.height ≤ 64
  free : ∀ n ∈ t.preorder, Unreserved n.label

theorem ofJson_toJson {t : Tree Label} (h : t.Describable) : ofJson t.toJson false = .ok t := by
  have nesting := TreeForm.nesting_ofTree_lt t
  have low := h.low
  have read := Json.read_written (TreeForm.exact_ofTree t) (by rw [Json.nestingLimit]; omega)
  unfold ofJson toJson
  rw [read]
  dsimp only
  rw [TreeForm.node_ofTree h.free]
  rfl

theorem describable_of_ofJson {text : String} {t : Tree Label} (h : ofJson text false = .ok t) :
    t.Describable := by
  have shallow := Json.nesting_read_lt text
  unfold ofJson at h
  split at h
  rename_i v trailing read
  split at h
  · cases h
  · cases h
  · rename_i u node
    have same : u = t := Except.ok.inj h
    subst same
    have levels : v.nesting < 128 := by rwa [read] at shallow
    have := TreeForm.height_of_node_le node
    exact ⟨by omega, TreeForm.unreserved_of_node node⟩

/-- Every tree that can be told from its JSON is read back from it, and no other is ever read. -/
theorem ofJson_toJson_faithful :
    (∀ t : Tree Label, t.Describable → ofJson t.toJson false = .ok t) ∧
      ∀ (text : String) (t : Tree Label), ofJson text false = .ok t →
        t.Describable ∧ ofJson t.toJson false = .ok t :=
  ⟨fun _ => ofJson_toJson, fun _ _ h =>
    ⟨describable_of_ofJson h, ofJson_toJson (describable_of_ofJson h)⟩⟩

/-- A tree in its own words, and in others that add a member which is no text. -/
theorem ofJson_toJson_faithful_block :
    let t : Tree Label :=
      ⟨⟨"block", some "say \"hi\"\n", some 7, .ofList [("kind", "é\\")]⟩,
        [⟨⟨"leaf", none, none, {}⟩, []⟩]⟩
    let text :=
      "\x7b \"kind\": \"\\u00e9\\\\\", \"$children\": [\x7b\"$name\": \"leaf\"\x7d], " ++
      "\"size\": [1, null], \"$value\": \"say \\\"hi\\\"\\n\", \"$offset\": 7, " ++
      "\"$name\": \"block\" \x7d"
    t.Describable ∧ ofJson text false = .ok t ∧ ofJson t.toJson false = .ok t := by
  intro t text
  have whole : t.Describable := ⟨by decide, by decide⟩
  have read : ofJson text false = .ok t := by decide +kernel
  exact ⟨(ofJson_toJson_faithful.2 text t read).1, read, ofJson_toJson_faithful.1 t whole⟩

end TreeQuery.Tree
