import TreeQuery.Json.TreeForm

namespace TreeQuery.TreeForm

open Json (Value Member Fault Number)

/-- Whether no attribute has a reserved key. -/
def Unreserved (label : Label) : Prop := ∀ key ∈ label.attributes.keys, key ∉ reservedKeys

instance (label : Label) : Decidable (Unreserved label) :=
  inferInstanceAs (Decidable (∀ key ∈ label.attributes.keys, key ∉ reservedKeys))

/-- The fields that one more member leads to. No member is taken twice, attributes apart. -/
inductive Fields.Takes (fields : Fields) : Member → Fields → Prop
  | name {v : Value} {s : String} (unread : fields.name = none) (read : asText v = .ok s) :
    Takes fields (.mk nameKey v) { fields with name := some s }
  | children {v : Value} {ts : List (Tree Label)} (unread : fields.children = none)
    (read : asChildren v = .ok ts) :
    Takes fields (.mk childrenKey v) { fields with children := some ts }
  | value {v : Value} {s : Option String} (unread : fields.value = none)
    (read : asOptionalText v = .ok s) :
    Takes fields (.mk valueKey v) { fields with value := some s }
  | offset {v : Value} {n : Option UInt64} (unread : fields.offset = none)
    (read : asOptionalOffset v = .ok n) :
    Takes fields (.mk offsetKey v) { fields with offset := some n }
  | extra {key : String} {v : Value} {attributes : Dictionary String}
    (free : key ∉ reservedKeys) (read : withMember fields.attributes key v = .ok attributes) :
    Takes fields (.mk key v) { fields with attributes }

/-- Goes on with what is read of a member that may be there once. -/
def once {α : Type} (old : Option α) (key : String) (read : Except TreeProblem α)
    (next : α → Except TreeProblem Fields) : Except TreeProblem Fields :=
  if old.isSome then .error (.duplicateField key) else read.bind next

theorem once_eq_ok_iff {α : Type} {old : Option α} {key : String} {read : Except TreeProblem α}
    {next : α → Except TreeProblem Fields} {fields : Fields} :
    once old key read next = .ok fields ↔ old = none ∧ ∃ a, read = .ok a ∧ next a = .ok fields := by
  cases old <;> cases read <;> simp [once, Except.bind]

theorem withMembers_cons (fields : Fields) (key : String) (v : Value) (members : List Member) :
    withMembers fields (.mk key v :: members) =
      if key = nameKey then
        once fields.name nameKey (asText v) fun s =>
          withMembers { fields with name := some s } members
      else if key = childrenKey then
        once fields.children childrenKey (asChildren v) fun ts =>
          withMembers { fields with children := some ts } members
      else if key = valueKey then
        once fields.value valueKey (asOptionalText v) fun s =>
          withMembers { fields with value := some s } members
      else if key = offsetKey then
        once fields.offset offsetKey (asOptionalOffset v) fun n =>
          withMembers { fields with offset := some n } members
      else
        (withMember fields.attributes key v).bind fun attributes =>
          withMembers { fields with attributes } members := by
  rw [withMembers]
  cases asText v <;> cases asChildren v <;> cases asOptionalText v <;> cases asOptionalOffset v <;>
    cases withMember fields.attributes key v <;> rfl

theorem withMembers_cons_iff {fields fields' : Fields} {m : Member} {members : List Member} :
    withMembers fields (m :: members) = .ok fields' ↔
      ∃ next, fields.Takes m next ∧ withMembers next members = .ok fields' := by
  obtain ⟨key, v⟩ := m
  rw [withMembers_cons]
  constructor
  · intro h
    split at h
    · rename_i same
      obtain ⟨unread, s, read, rest⟩ := once_eq_ok_iff.mp h
      exact ⟨_, same ▸ .name unread read, rest⟩
    split at h
    · rename_i same
      obtain ⟨unread, ts, read, rest⟩ := once_eq_ok_iff.mp h
      exact ⟨_, same ▸ .children unread read, rest⟩
    split at h
    · rename_i same
      obtain ⟨unread, s, read, rest⟩ := once_eq_ok_iff.mp h
      exact ⟨_, same ▸ .value unread read, rest⟩
    split at h
    · rename_i same
      obtain ⟨unread, n, read, rest⟩ := once_eq_ok_iff.mp h
      exact ⟨_, same ▸ .offset unread read, rest⟩
    · rename_i name children value offset
      cases read : withMember fields.attributes key v with
      | error problem =>
        rw [read] at h
        cases h
      | ok attributes =>
        rw [read] at h
        exact ⟨_, .extra (by simp [reservedKeys, name, children, value, offset]) read, h⟩
  · rintro ⟨next, takes, rest⟩
    cases takes with
    | name unread read => exact (if_pos rfl).trans (once_eq_ok_iff.mpr ⟨unread, _, read, rest⟩)
    | children unread read =>
      rw [if_neg (by decide), if_pos rfl]
      exact once_eq_ok_iff.mpr ⟨unread, _, read, rest⟩
    | value unread read =>
      rw [if_neg (by decide), if_neg (by decide), if_pos rfl]
      exact once_eq_ok_iff.mpr ⟨unread, _, read, rest⟩
    | offset unread read =>
      rw [if_neg (by decide), if_neg (by decide), if_neg (by decide), if_pos rfl]
      exact once_eq_ok_iff.mpr ⟨unread, _, read, rest⟩
    | extra free read =>
      simp only [reservedKeys, List.mem_cons, List.not_mem_nil, or_false, not_or] at free
      obtain ⟨name, children, value, offset⟩ := free
      rw [if_neg name, if_neg children, if_neg value, if_neg offset, read]
      exact rest

theorem asChildren_eq_ok_iff {v : Value} {ts : List (Tree Label)} :
    asChildren v = .ok ts ↔ ∃ items, v = .array items none ∧ nodes items = .ok ts := by
  constructor
  · intro h
    unfold asChildren at h
    split at h
    · split at h
      · cases h
      · rename_i read
        split at h
        · cases h
        · exact ⟨_, rfl, read.trans h⟩
    · cases h
  · rintro ⟨items, rfl, read⟩
    rw [asChildren, read]

theorem node_eq_ok_iff {v : Value} {t : Tree Label} :
    node v = .ok t ↔
      ∃ members fields, v = .object members none ∧ withMembers {} members = .ok fields ∧
        fields.node = .ok t := by
  constructor
  · intro h
    unfold node at h
    split at h
    · split at h
      · cases h
      · rename_i read
        split at h
        · cases h
        · exact ⟨_, _, rfl, read, h⟩
    · cases h
  · rintro ⟨members, fields, rfl, read, whole⟩
    rw [node, read]
    exact whole

theorem withMembers_append_iff {fields fields' : Fields} {ms ns : List Member} :
    withMembers fields (ms ++ ns) = .ok fields' ↔
      ∃ mid, withMembers fields ms = .ok mid ∧ withMembers mid ns = .ok fields' := by
  induction ms generalizing fields with
  | nil => simp [withMembers]
  | cons m ms ih =>
    simp only [List.cons_append, withMembers_cons_iff, ih]
    constructor
    · rintro ⟨next, takes, mid, front, back⟩
      exact ⟨mid, ⟨next, takes, front⟩, back⟩
    · rintro ⟨mid, ⟨next, takes, front⟩, back⟩
      exact ⟨next, takes, mid, front, back⟩

theorem exists_node_of_nodes {items : List Value} {ts : List (Tree Label)}
    (h : nodes items = .ok ts) : ∀ t ∈ ts, ∃ v ∈ items, node v = .ok t := by
  induction items generalizing ts with
  | nil =>
    rw [nodes] at h
    cases h
    exact fun _ none => nomatch none
  | cons v vs ih =>
    rw [nodes] at h
    split at h
    · cases h
    · rename_i t first
      split at h
      · cases h
      · rename_i others
        cases h
        refine List.forall_mem_cons.mpr ⟨⟨v, List.mem_cons_self .., first⟩, fun u hu => ?_⟩
        obtain ⟨w, hw, read⟩ := ih others u hu
        exact ⟨w, List.mem_cons_of_mem _ hw, read⟩

theorem get?_of_withMember {d d' : Dictionary String} {key other : String} {v : Value}
    (h : withMember d key v = .ok d') (apart : key ≠ other) : d'.get? other = d.get? other := by
  unfold withMember at h
  split at h
  · cases h
  · cases h
    rw [Dictionary.get?_insert, if_neg apart]
  · cases h
    rw [Dictionary.get?_erase, if_neg apart]

theorem Fields.Takes.contains_reserved {fields next : Fields} {m : Member}
    (takes : fields.Takes m next) {key : String} (reserved : key ∈ reservedKeys) :
    next.attributes.contains key = fields.attributes.contains key := by
  cases takes with
  | name | children | value | offset => rfl
  | extra free read =>
    have apart := ne_of_mem_of_not_mem reserved free
    rw [Dictionary.contains, get?_of_withMember read apart.symm, Dictionary.contains]

theorem Fields.Takes.children_cases {fields next : Fields} {m : Member}
    (takes : fields.Takes m next) :
    next.children = fields.children ∨
      ∃ ts, asChildren m.value = .ok ts ∧ next.children = some ts := by
  cases takes with
  | children _ read => exact .inr ⟨_, read, rfl⟩
  | name | value | offset | extra => exact .inl rfl

theorem contains_reserved_of_withMembers {fields fields' : Fields} {members : List Member}
    (h : withMembers fields members = .ok fields') {key : String}
    (reserved : key ∈ reservedKeys) :
    fields'.attributes.contains key = fields.attributes.contains key := by
  induction members generalizing fields with
  | nil =>
    rw [withMembers] at h
    cases h
    rfl
  | cons m members ih =>
    obtain ⟨next, takes, rest⟩ := withMembers_cons_iff.mp h
    rw [ih rest, takes.contains_reserved reserved]

theorem children_of_withMembers {fields fields' : Fields} {members : List Member}
    (h : withMembers fields members = .ok fields') :
    fields'.children = fields.children ∨
      ∃ m ∈ members, ∃ ts, asChildren m.value = .ok ts ∧ fields'.children = some ts := by
  induction members generalizing fields with
  | nil =>
    rw [withMembers] at h
    cases h
    exact .inl rfl
  | cons m members ih =>
    obtain ⟨next, takes, rest⟩ := withMembers_cons_iff.mp h
    rcases ih rest with kept | ⟨n, hn, ts, read, eq⟩
    · rw [kept]
      exact takes.children_cases.imp_right fun ⟨ts, read, eq⟩ =>
        ⟨m, List.mem_cons_self .., ts, read, eq⟩
    · exact .inr ⟨n, List.mem_cons_of_mem _ hn, ts, read, eq⟩

theorem Fields.node_eq_ok_iff {fields : Fields} {t : Tree Label} :
    fields.node = .ok t ↔ ∃ name, fields.name = some name ∧
      t = ⟨⟨name, fields.value.getD none, fields.offset.getD none, fields.attributes⟩,
        fields.children.getD []⟩ := by
  unfold Fields.node
  cases fields.name with
  | none => simp
  | some name => simp [eq_comm]

/-- A node has no attribute under a reserved key, and its children come from an array among the
members. -/
theorem node_spec {v : Value} {t : Tree Label} (h : node v = .ok t) :
    Unreserved t.label ∧ ∃ members, v = .object members none ∧
      (t.children = [] ∨
        ∃ m ∈ members, ∃ items, m.value = .array items none ∧ nodes items = .ok t.children) := by
  obtain ⟨members, fields, rfl, read, whole⟩ := node_eq_ok_iff.mp h
  obtain ⟨name, -, rfl⟩ := Fields.node_eq_ok_iff.mp whole
  refine ⟨fun key hk reserved => ?_, members, rfl, ?_⟩
  · rw [Dictionary.mem_keys_iff, contains_reserved_of_withMembers read reserved] at hk
    cases hk
  · rcases children_of_withMembers read with none | ⟨m, hm, ts, array, some⟩
    · exact .inl (by rw [none]; rfl)
    · obtain ⟨items, eq, nodes⟩ := asChildren_eq_ok_iff.mp array
      exact .inr ⟨m, hm, items, eq, by rw [some]; exact nodes⟩

end TreeQuery.TreeForm
