import TreeQuery.Proofs.Json.Fields
import TreeQuery.Proofs.Json.Value

namespace TreeQuery

/-- Sets an entry, or removes it. -/
def Dictionary.assign {β : Type} (d : Dictionary β) (key : String) : Option β → Dictionary β
  | some value => d.insert key value
  | none => d.erase key

theorem Dictionary.get?_assign {β : Type} (d : Dictionary β) (key : String) (value : Option β)
    (other : String) : (d.assign key value).get? other = if key = other then value else d.get? other := by
  cases value with
  | none => rw [assign, get?_erase]
  | some value => rw [assign, get?_insert]

/-- Entries with different keys may be set in either order. -/
theorem Dictionary.assign_comm {β : Type} (d : Dictionary β) {key other : String} (apart : key ≠ other)
    (v w : Option β) : (d.assign key v).assign other w = (d.assign other w).assign key v := by
  apply Dictionary.ext_get?
  intro k
  simp only [get?_assign]
  by_cases here : key = k
  · subst here
    simp [apart.symm]
  · simp [here]

theorem Dictionary.assign_none {β : Type} {d : Dictionary β} {key : String}
    (absent : d.get? key = none) : d.assign key none = d := by
  apply Dictionary.ext_get?
  intro other
  rw [get?_assign]
  split
  · rename_i same
    rw [← same, absent]
  · rfl

namespace TreeForm

open Json (Value Member Fault Number)

theorem withMember_eq_ok_iff {attributes next : Dictionary String} {key : String} {v : Value} :
    withMember attributes key v = .ok next ↔
      v.fault? = none ∧ next = attributes.assign key v.text? := by
  unfold withMember
  cases found : v.fault? with
  | some fault => simp
  | none =>
    cases v
    all_goals
      simp only [Value.text?, Dictionary.assign, Except.ok.injEq, true_and]
      exact eq_comm

/-- Members with different keys may be read in either order. -/
theorem Fields.Takes.swap {fields mid next : Fields} {m n : Member} (first : fields.Takes m mid)
    (second : mid.Takes n next) (apart : m.key ≠ n.key) :
    ∃ mid', fields.Takes n mid' ∧ mid'.Takes m next := by
  cases first with
  | name unread read =>
    cases second with
    | name => exact absurd rfl apart
    | children unread' read' => exact ⟨_, .children unread' read', .name unread read⟩
    | value unread' read' => exact ⟨_, .value unread' read', .name unread read⟩
    | offset unread' read' => exact ⟨_, .offset unread' read', .name unread read⟩
    | extra free read' => exact ⟨_, .extra free read', .name unread read⟩
  | children unread read =>
    cases second with
    | name unread' read' => exact ⟨_, .name unread' read', .children unread read⟩
    | children => exact absurd rfl apart
    | value unread' read' => exact ⟨_, .value unread' read', .children unread read⟩
    | offset unread' read' => exact ⟨_, .offset unread' read', .children unread read⟩
    | extra free read' => exact ⟨_, .extra free read', .children unread read⟩
  | value unread read =>
    cases second with
    | name unread' read' => exact ⟨_, .name unread' read', .value unread read⟩
    | children unread' read' => exact ⟨_, .children unread' read', .value unread read⟩
    | value => exact absurd rfl apart
    | offset unread' read' => exact ⟨_, .offset unread' read', .value unread read⟩
    | extra free read' => exact ⟨_, .extra free read', .value unread read⟩
  | offset unread read =>
    cases second with
    | name unread' read' => exact ⟨_, .name unread' read', .offset unread read⟩
    | children unread' read' => exact ⟨_, .children unread' read', .offset unread read⟩
    | value unread' read' => exact ⟨_, .value unread' read', .offset unread read⟩
    | offset => exact absurd rfl apart
    | extra free read' => exact ⟨_, .extra free read', .offset unread read⟩
  | extra free read =>
    cases second with
    | name unread' read' => exact ⟨_, .name unread' read', .extra free read⟩
    | children unread' read' => exact ⟨_, .children unread' read', .extra free read⟩
    | value unread' read' => exact ⟨_, .value unread' read', .extra free read⟩
    | offset unread' read' => exact ⟨_, .offset unread' read', .extra free read⟩
    | extra free' read' =>
      obtain ⟨whole, rfl⟩ := withMember_eq_ok_iff.mp read
      obtain ⟨whole', rfl⟩ := withMember_eq_ok_iff.mp read'
      exact ⟨_, .extra free' (withMember_eq_ok_iff.mpr ⟨whole', rfl⟩),
        .extra free (withMember_eq_ok_iff.mpr ⟨whole, Dictionary.assign_comm _ apart _ _⟩)⟩

theorem withMembers_swap {fields next : Fields} {m n : Member} {ms : List Member}
    (apart : m.key ≠ n.key) (h : withMembers fields (m :: n :: ms) = .ok next) :
    withMembers fields (n :: m :: ms) = .ok next := by
  obtain ⟨mid, first, rest⟩ := withMembers_cons_iff.mp h
  obtain ⟨mid', second, rest⟩ := withMembers_cons_iff.mp rest
  obtain ⟨between, second, first⟩ := first.swap second apart
  exact withMembers_cons_iff.mpr ⟨between, second, withMembers_cons_iff.mpr ⟨mid', first, rest⟩⟩

/-- The order of members does not matter if no key is repeated. -/
theorem withMembers_perm {fields next : Fields} {ms ns : List Member} (order : ms.Perm ns)
    (distinct : (ms.map Member.key).Nodup) (h : withMembers fields ms = .ok next) :
    withMembers fields ns = .ok next := by
  induction order generalizing fields with
  | nil => exact h
  | cons m _ ih =>
    obtain ⟨mid, takes, rest⟩ := withMembers_cons_iff.mp h
    exact withMembers_cons_iff.mpr ⟨mid, takes, ih (List.nodup_cons.mp distinct).2 rest⟩
  | swap m n ms =>
    have apart : n.key ≠ m.key := fun same =>
      (List.nodup_cons.mp distinct).1 (by simp [same])
    exact withMembers_swap apart h
  | trans first _ ih₁ ih₂ =>
    exact ih₂ ((first.map Member.key).nodup_iff.mp distinct) (ih₁ distinct h)

/-- A member may be moved behind others with different keys. -/
theorem withMembers_behind {fields next : Fields} {m : Member} {ms : List Member}
    (apart : m.key ∉ ms.map Member.key) :
    withMembers fields (m :: ms) = .ok next ↔ withMembers fields (ms ++ [m]) = .ok next := by
  induction ms generalizing fields with
  | nil => rfl
  | cons n ms ih =>
    rw [List.map_cons, List.mem_cons, not_or] at apart
    have swapped : withMembers fields (m :: n :: ms) = .ok next ↔
        withMembers fields (n :: m :: ms) = .ok next :=
      ⟨withMembers_swap apart.1, withMembers_swap (Ne.symm apart.1)⟩
    rw [swapped, List.cons_append, withMembers_cons_iff, withMembers_cons_iff]
    exact exists_congr fun mid => and_congr_right fun _ => ih apart.2

theorem Fields.Takes.get?_attributes {fields next : Fields} {m : Member} (takes : fields.Takes m next)
    {key : String} (apart : m.key ≠ key) :
    next.attributes.get? key = fields.attributes.get? key := by
  cases takes with
  | name | children | value | offset => rfl
  | extra free read => exact get?_of_withMember read apart

/-- A key that is not among the members is among the attributes just as it was. -/
theorem get?_of_withMembers {fields next : Fields} {ms : List Member} {key : String}
    (absent : key ∉ ms.map Member.key) (h : withMembers fields ms = .ok next) :
    next.attributes.get? key = fields.attributes.get? key := by
  induction ms generalizing fields with
  | nil =>
    rw [withMembers] at h
    cases h
    rfl
  | cons m ms ih =>
    rw [List.map_cons, List.mem_cons, not_or] at absent
    obtain ⟨mid, takes, rest⟩ := withMembers_cons_iff.mp h
    rw [ih absent.2 rest, takes.get?_attributes (Ne.symm absent.1)]

/-- The members with one more among them, which is whole and has a key that neither is reserved nor
occurs otherwise. -/
structure Adds (m : Member) (ms ns : List Member) : Prop where
  place : ∃ before after, ms = before ++ after ∧ ns = before ++ m :: after
  free : m.key ∉ reservedKeys
  fresh : m.key ∉ ms.map Member.key
  whole : m.value.fault? = none

/-- Such a member sets one attribute if it is a text, and no other member makes up for it. -/
theorem Adds.withMembers_iff {m : Member} {ms ns : List Member} (adds : Adds m ms ns)
    {fields next : Fields} :
    withMembers fields ns = .ok next ↔ ∃ plain, withMembers fields ms = .ok plain ∧
      next = { plain with attributes := plain.attributes.assign m.key m.value.text? } := by
  obtain ⟨⟨before, after, rfl, rfl⟩, free, fresh, whole⟩ := adds
  rw [List.map_append, List.mem_append, not_or] at fresh
  have last : withMembers fields (before ++ m :: after) = .ok next ↔
      withMembers fields (before ++ after ++ [m]) = .ok next := by
    rw [List.append_assoc, withMembers_append_iff, withMembers_append_iff]
    exact exists_congr fun mid => and_congr_right fun _ => withMembers_behind fresh.2
  rw [last, withMembers_append_iff]
  refine exists_congr fun plain => and_congr_right fun _ => ?_
  obtain ⟨key, v⟩ := m
  constructor
  · intro h
    obtain ⟨mid, takes, rest⟩ := withMembers_cons_iff.mp h
    rw [withMembers] at rest
    cases rest
    cases takes with
    | name | children | value | offset => exact absurd (by simp [reservedKeys, Member.key]) free
    | extra _ read =>
      obtain ⟨-, rfl⟩ := withMember_eq_ok_iff.mp read
      rfl
  · rintro rfl
    exact withMembers_cons_iff.mpr
      ⟨_, .extra free (withMember_eq_ok_iff.mpr ⟨whole, rfl⟩), withMembers.eq_1 _⟩

end TreeForm

end TreeQuery
