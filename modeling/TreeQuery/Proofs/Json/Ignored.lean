import Mathlib.Logic.Relation
import TreeQuery.Proofs.Json.Members
import TreeQuery.Proofs.Json.ReadBack

namespace TreeQuery

namespace Tree

variable {α : Type}

/-- The node that is reached by these numbers of children. -/
def at? : List Nat → Tree α → Option (Tree α)
  | [], t => some t
  | i :: path, t => t.children[i]?.bind (at? path)

/-- Changes the node that is reached by these numbers of children. -/
def updateAt (change : Tree α → Tree α) : List Nat → Tree α → Tree α
  | [], t => change t
  | i :: path, t => ⟨t.label, t.children.modify i (updateAt change path)⟩

theorem updateAt_id (path : List Nat) (t : Tree α) : t.updateAt id path = t := by
  induction path generalizing t with
  | nil => rfl
  | cons i path ih =>
    obtain ⟨label, children⟩ := t
    have same : updateAt id path = (id : Tree α → Tree α) := funext ih
    rw [updateAt, same, List.modify_id]

end Tree

namespace TreeForm

open Json (Value Member)
open Relation (ReflTransGen)

/-- An edit of the members of one node's object, the one that is reached by these numbers of children. -/
inductive AtNode (edit : List Member → List Member → Prop) : List Nat → Value → Value → Prop where
  | here {ms ns : List Member} (edited : edit ms ns) :
    AtNode edit [] (.object ms none) (.object ns none)
  | deeper {i : Nat} {path : List Nat} {before after : List Member} {items : List Value}
    {v w : Value} (child : items[i]? = some v) (edited : AtNode edit path v w) :
    AtNode edit (i :: path)
      (.object (before ++ .mk childrenKey (.array items none) :: after) none)
      (.object (before ++ .mk childrenKey (.array (items.set i w) none) :: after) none)

theorem AtNode.mono {edit other : List Member → List Member → Prop}
    (weaker : ∀ {ms ns}, edit ms ns → other ms ns) {path : List Nat} {v w : Value}
    (edited : AtNode edit path v w) : AtNode other path v w := by
  induction edited with
  | here edited => exact .here (weaker edited)
  | deeper child _ ih => exact .deeper child ih

/-- An edit of the members of some node's object, at any depth. -/
def AtSomeNode (edit : List Member → List Member → Prop) (v w : Value) : Prop :=
  ∃ path, AtNode edit path v w

/-- The same members in another order, where no key is repeated. -/
structure Reordered (ms ns : List Member) : Prop where
  order : ms.Perm ns
  distinct : (ms.map Member.key).Nodup

/-- The edits of a node's members that the node does not notice. -/
inductive Ignored : List Member → List Member → Prop where
  | reorder {ms ns : List Member} (reordered : Reordered ms ns) : Ignored ms ns
  | add {m : Member} {ms ns : List Member} (noText : m.value.text? = none) (adds : Adds m ms ns) :
    Ignored ms ns
  | delete {m : Member} {ms ns : List Member} (noText : m.value.text? = none)
    (adds : Adds m ns ms) : Ignored ms ns

theorem node_object_iff {ms : List Member} {t : Tree Label} :
    node (.object ms none) = .ok t ↔
      ∃ fields, withMembers {} ms = .ok fields ∧ fields.node = .ok t := by
  rw [node_eq_ok_iff]
  constructor
  · rintro ⟨members, fields, same, read, whole⟩
    cases same
    exact ⟨fields, read, whole⟩
  · rintro ⟨fields, read, whole⟩
    exact ⟨ms, fields, rfl, read, whole⟩

/-- The attribute that a further member sets is none of those that were there. -/
theorem Adds.absent {m : Member} {ms ns : List Member} (adds : Adds m ms ns) {fields : Fields}
    (read : withMembers {} ms = .ok fields) : fields.attributes.get? m.key = none :=
  get?_of_withMembers adds.fresh read

theorem Adds.node_iff {m : Member} {ms ns : List Member} (adds : Adds m ms ns)
    (noText : m.value.text? = none) {t : Tree Label} :
    node (.object ns none) = .ok t ↔ node (.object ms none) = .ok t := by
  have same {fields : Fields} (read : withMembers {} ms = .ok fields) :
      { fields with attributes := fields.attributes.assign m.key m.value.text? } = fields := by
    rw [noText, Dictionary.assign_none (adds.absent read)]
  rw [node_object_iff, node_object_iff]
  constructor
  · rintro ⟨fields, read, whole⟩
    obtain ⟨plain, read, eq⟩ := adds.withMembers_iff.mp read
    rw [eq, same read] at whole
    exact ⟨plain, read, whole⟩
  · rintro ⟨fields, read, whole⟩
    exact ⟨fields, adds.withMembers_iff.mpr ⟨fields, read, (same read).symm⟩, whole⟩

theorem Ignored.node {ms ns : List Member} (edit : Ignored ms ns) {t : Tree Label}
    (read : node (.object ms none) = .ok t) : node (.object ns none) = .ok t := by
  cases edit with
  | reorder reordered =>
    obtain ⟨fields, read, whole⟩ := node_object_iff.mp read
    exact node_object_iff.mpr
      ⟨fields, withMembers_perm reordered.order reordered.distinct read, whole⟩
  | add noText adds => exact (adds.node_iff noText).mpr read
  | delete noText adds => exact (adds.node_iff noText).mp read

/-- A further text is a further attribute. -/
theorem Adds.node_text {key s : String} {ms ns : List Member} (adds : Adds (.mk key (.text s)) ms ns)
    {t : Tree Label} (read : node (.object ms none) = .ok t) :
    t.label.attributes.get? key = none ∧ node (.object ns none) = .ok (t.withAttribute key s) := by
  obtain ⟨fields, members, whole⟩ := node_object_iff.mp read
  obtain ⟨name, named, rfl⟩ := Fields.node_eq_ok_iff.mp whole
  have more := adds.withMembers_iff.mpr ⟨fields, members, rfl⟩
  exact ⟨adds.absent members,
    node_object_iff.mpr ⟨_, more, Fields.node_eq_ok_iff.mpr ⟨name, named, rfl⟩⟩⟩

theorem Fields.takes_children_iff {fields next : Fields} {v : Value} :
    fields.Takes (.mk childrenKey v) next ↔ fields.children = none ∧
      ∃ ts, asChildren v = .ok ts ∧ next = { fields with children := some ts } := by
  constructor
  · intro takes
    generalize same : Member.mk childrenKey v = m at takes
    cases takes with
    | children unread read =>
      cases same
      exact ⟨unread, _, read, rfl⟩
    | name | value | offset => exact absurd (congrArg Member.key same) (by simp only [Member.key]; decide)
    | extra free =>
      cases same
      exact absurd (by simp [reservedKeys]) free
  · rintro ⟨unread, ts, read, rfl⟩
    exact .children unread read

theorem Fields.Takes.other_children {fields next : Fields} {ts : List (Tree Label)} {m : Member}
    (takes : Fields.Takes { fields with children := some ts } m next) (us : List (Tree Label)) :
    next.children = some ts ∧
      Fields.Takes { fields with children := some us } m { next with children := some us } := by
  cases takes with
  | name unread read => exact ⟨rfl, .name unread read⟩
  | children unread => cases unread
  | value unread read => exact ⟨rfl, .value unread read⟩
  | offset unread read => exact ⟨rfl, .offset unread read⟩
  | extra free read => exact ⟨rfl, .extra free read⟩

/-- Once the children are read, the members behind them do not depend on what these are. -/
theorem withMembers_other_children {fields next : Fields} {ts : List (Tree Label)}
    {ms : List Member} (h : withMembers { fields with children := some ts } ms = .ok next)
    (us : List (Tree Label)) :
    next.children = some ts ∧
      withMembers { fields with children := some us } ms =
        .ok { next with children := some us } := by
  induction ms generalizing fields with
  | nil =>
    rw [withMembers] at h
    cases h
    exact ⟨rfl, withMembers.eq_1 _⟩
  | cons m ms ih =>
    obtain ⟨mid, takes, rest⟩ := withMembers_cons_iff.mp h
    obtain ⟨kept, takes⟩ := takes.other_children us
    have same : { mid with children := some ts } = mid := by rw [← kept]
    rw [← same] at rest
    obtain ⟨kept, rest⟩ := ih rest
    exact ⟨kept, withMembers_cons_iff.mpr ⟨_, takes, rest⟩⟩

theorem nodes_set {items : List Value} {ts : List (Tree Label)} (read : nodes items = .ok ts)
    {i : Nat} {v : Value} (child : items[i]? = some v) :
    ∃ u, ts[i]? = some u ∧ node v = .ok u ∧
      ∀ w u', node w = .ok u' → nodes (items.set i w) = .ok (ts.set i u') := by
  induction items generalizing ts i with
  | nil => cases child
  | cons first items ih =>
    rw [nodes] at read
    split at read
    · cases read
    · rename_i t one
      split at read
      · cases read
      · rename_i ts others
        cases read
        cases i with
        | zero =>
          cases child
          refine ⟨t, rfl, one, fun w u' read => ?_⟩
          rw [List.set_cons_zero, List.set_cons_zero, nodes, read, others]
        | succ i =>
          obtain ⟨u, place, node, set⟩ := ih others child
          refine ⟨u, place, node, fun w u' read => ?_⟩
          rw [List.set_cons_succ, List.set_cons_succ, nodes, one, set w u' read]

/-- What an edit does to a node by itself is what it does to this node in any tree. -/
theorem AtNode.node {edit : List Member → List Member → Prop} {change : Tree Label → Tree Label}
    {holds : Tree Label → Prop}
    (root : ∀ {ms ns n}, edit ms ns → node (.object ms none) = .ok n →
      holds n ∧ node (.object ns none) = .ok (change n))
    {path : List Nat} {v w : Value} (edited : AtNode edit path v w) {t : Tree Label}
    (read : node v = .ok t) :
    ∃ n, t.at? path = some n ∧ holds n ∧ TreeForm.node w = .ok (t.updateAt change path) := by
  induction edited generalizing t with
  | here edited => exact ⟨t, rfl, root edited read⟩
  | deeper child edited ih =>
    rename_i i path before after items v w
    obtain ⟨fields, read, whole⟩ := node_object_iff.mp read
    obtain ⟨mid, front, rest⟩ := withMembers_append_iff.mp read
    obtain ⟨next, takes, back⟩ := withMembers_cons_iff.mp rest
    obtain ⟨unread, ts, array, rfl⟩ := Fields.takes_children_iff.mp takes
    obtain ⟨items, same, below⟩ := asChildren_eq_ok_iff.mp array
    cases same
    obtain ⟨u, place, child, set⟩ := nodes_set below child
    obtain ⟨n, reached, holds, edited⟩ := ih child
    obtain ⟨kept, back⟩ := withMembers_other_children back (ts.set i (u.updateAt change path))
    obtain ⟨name, named, rfl⟩ := Fields.node_eq_ok_iff.mp whole
    refine ⟨n, ?_, holds, ?_⟩
    · rw [Tree.at?, kept, Option.getD_some, place]
      exact reached
    · have array := asChildren_eq_ok_iff.mpr ⟨_, rfl, set w _ edited⟩
      have rest := withMembers_cons_iff.mpr ⟨_, .children unread array, back⟩
      refine node_object_iff.mpr ⟨_, withMembers_append_iff.mpr ⟨mid, front, rest⟩,
        Fields.node_eq_ok_iff.mpr ⟨name, named, ?_⟩⟩
      rw [Tree.updateAt, kept, Option.getD_some, List.modify_eq_set, place]
      rfl

theorem fault?_of_asText {v : Value} {s : String} (read : asText v = .ok s) : v.fault? = none := by
  unfold asText at read
  split at read
  · rfl
  · cases read

theorem Fields.Takes.fault?_eq_none {fields next : Fields} {m : Member} (takes : fields.Takes m next)
    (children : ∀ ts, asChildren m.value = .ok ts → m.value.fault? = none) :
    m.value.fault? = none := by
  cases takes with
  | name _ read => exact fault?_of_asText read
  | children _ read => exact children _ read
  | @value v _ _ read =>
    unfold asOptionalText at read
    split at read
    · rfl
    · cases text : asText v with
      | ok s => exact fault?_of_asText text
      | error problem =>
        rw [text] at read
        cases read
  | offset _ read =>
    unfold asOptionalOffset at read
    split at read
    · rfl
    · rfl
    · cases read
    · cases read
  | extra _ read => exact (withMember_eq_ok_iff.mp read).1

theorem fault?_of_withMembers {fields next : Fields} {ms : List Member}
    (h : withMembers fields ms = .ok next)
    (children : ∀ m ∈ ms, ∀ ts, asChildren m.value = .ok ts → m.value.fault? = none) :
    ∀ m ∈ ms, m.value.fault? = none := by
  induction ms generalizing fields with
  | nil => exact nofun
  | cons m ms ih =>
    obtain ⟨mid, takes, rest⟩ := withMembers_cons_iff.mp h
    obtain ⟨first, others⟩ := List.forall_mem_cons.mp children
    exact List.forall_mem_cons.mpr ⟨takes.fault?_eq_none first, ih rest others⟩

/-- What describes a node, or several as children, holds no fault. -/
theorem fault?_eq_none (v : Value) :
    (∀ t, node v = .ok t → v.fault? = none) ∧ (∀ ts, asChildren v = .ok ts → v.fault? = none) := by
  induction v using Value.byParts with
  | step v ih =>
    constructor
    · intro t h
      obtain ⟨members, fields, rfl, read, -⟩ := node_eq_ok_iff.mp h
      have whole := fault?_of_withMembers read fun m hm => (ih _ (List.mem_map_of_mem hm)).2
      rw [Value.fault?, Value.memberFaults?_eq_none_iff.mpr whole]
      rfl
    · intro ts h
      obtain ⟨items, rfl, read⟩ := asChildren_eq_ok_iff.mp h
      have whole : ∀ v ∈ items, v.fault? = none := fun v hv => by
        obtain ⟨i, child⟩ := List.mem_iff_getElem?.mp hv
        obtain ⟨u, -, node, -⟩ := nodes_set read child
        exact (ih v hv).1 u node
      rw [Value.fault?, Value.faults?_eq_none_iff.mpr whole]
      rfl

theorem AtNode.nesting_le {edit : List Member → List Member → Prop}
    (root : ∀ {ms ns}, edit ms ns → Value.memberNestings ns ≤ Value.memberNestings ms)
    {path : List Nat} {v w : Value} (edited : AtNode edit path v w) : w.nesting ≤ v.nesting := by
  induction edited with
  | here edited => exact Nat.add_le_add_left (root edited) 1
  | deeper child edited ih =>
    rename_i i path before after items v w
    have below : Value.nestings (items.set i w) ≤ Value.nestings items := by
      refine Value.nestings_le_iff.mpr fun u hu => ?_
      rcases List.mem_or_eq_of_mem_set hu with hu | rfl
      · exact Value.nesting_le_nestings hu
      · exact Nat.le_trans ih (Value.nesting_le_nestings (List.mem_of_getElem? child))
    simp only [Value.nesting, Value.memberNestings_append, Value.memberNestings]
    omega

theorem Reordered.memberNestings_le {ms ns : List Member} (reordered : Reordered ms ns) :
    Value.memberNestings ns ≤ Value.memberNestings ms :=
  Value.memberNestings_le_iff.mpr fun _ hm =>
    Value.nesting_le_memberNestings (reordered.order.mem_iff.mpr hm)

/-- A further member that nests nothing makes no object deeper. -/
theorem Adds.memberNestings_le {m : Member} {ms ns : List Member} (adds : Adds m ms ns)
    (flat : m.value.nesting = 0) : Value.memberNestings ns ≤ Value.memberNestings ms := by
  obtain ⟨before, after, rfl, rfl⟩ := adds.place
  obtain ⟨key, v⟩ := m
  have flat : v.nesting = 0 := flat
  rw [Value.memberNestings_append, Value.memberNestings_append, Value.memberNestings, flat,
    Nat.zero_max]

theorem node_of_ignored {v w : Value} (edits : ReflTransGen (AtSomeNode Ignored) v w)
    {t : Tree Label} (read : node v = .ok t) : node w = .ok t := by
  induction edits with
  | refl => exact read
  | tail _ edit ih =>
    obtain ⟨path, edited⟩ := edit
    have keeps {ms ns : List Member} {n : Tree Label} (edit : Ignored ms ns)
        (read : node (.object ms none) = .ok n) : True ∧ node (.object ns none) = .ok (id n) :=
      ⟨trivial, edit.node read⟩
    obtain ⟨-, -, -, node⟩ := edited.node keeps ih
    rwa [Tree.updateAt_id] at node

theorem AtSomeNode.ignored {v w : Value} (edit : AtSomeNode Reordered v w) :
    AtSomeNode Ignored v w := by
  obtain ⟨path, edited⟩ := edit
  exact ⟨path, edited.mono .reorder⟩

theorem nesting_of_reordered {v w : Value} (edits : ReflTransGen (AtSomeNode Reordered) v w) :
    w.nesting ≤ v.nesting := by
  induction edits with
  | refl => exact Nat.le_refl _
  | tail _ edit ih =>
    obtain ⟨path, edited⟩ := edit
    exact Nat.le_trans (edited.nesting_le Reordered.memberNestings_le) ih

end TreeForm

namespace Tree

open Json (Value Member DocumentText nestingLimit)
open Relation (ReflTransGen)
open TreeForm (AtNode AtSomeNode Reordered Ignored Adds)

/-- The texts from which a tree is read. -/
theorem ofJson_eq_ok_iff {text : String} {t : Tree Label} :
    ofJson text false = .ok t ↔
      ∃ v, DocumentText text.toList v ∧ v.nesting < nestingLimit ∧ TreeForm.node v = .ok t := by
  constructor
  · intro h
    have shallow := Json.nesting_read_lt text
    unfold ofJson at h
    split at h
    rename_i v trailing read
    split at h
    · cases h
    · cases h
    · rename_i u node
      have same : u = t := Except.ok.inj h
      subst same
      rw [read] at shallow
      exact ⟨v, Json.documentText_read read ((TreeForm.fault?_eq_none v).1 u node), shallow, node⟩
  · rintro ⟨v, spelled, shallow, node⟩
    unfold ofJson
    rw [spelled.read shallow]
    dsimp only
    rw [node]
    rfl

end Tree

end TreeQuery
