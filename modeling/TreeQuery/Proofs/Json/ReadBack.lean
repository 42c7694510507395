import TreeQuery.Json.Printer
import TreeQuery.Proofs.Json.Completeness
import TreeQuery.Proofs.Json.Numeral
import TreeQuery.Proofs.Json.Text

namespace TreeQuery.Json

namespace Value

mutual
/-- Written without loss: whole, and with no other numbers than natural ones. -/
def Exact : Value → Prop
  | null | boolean _ | text _ | number (.natural _) => True
  | array items none => AllExact items
  | object members none => MembersExact members
  | number (.negative _) | number (.real _) => False
  | array _ (some _) | object _ (some _) | broken _ => False
/-- Several values without loss. -/
def AllExact : List Value → Prop
  | [] => True
  | v :: vs => v.Exact ∧ AllExact vs
/-- Several members without loss. -/
def MembersExact : List Member → Prop
  | [] => True
  | .mk _ v :: ms => v.Exact ∧ MembersExact ms
end

theorem allExact_iff {items : List Value} : AllExact items ↔ ∀ v ∈ items, v.Exact := by
  induction items with
  | nil => simp [AllExact]
  | cons v vs ih => rw [AllExact, ih, List.forall_mem_cons]

theorem membersExact_iff {members : List Member} :
    MembersExact members ↔ ∀ m ∈ members, m.value.Exact := by
  induction members with
  | nil => simp [MembersExact]
  | cons m ms ih =>
    cases m
    rw [MembersExact, ih, List.forall_mem_cons, Member.value]

end Value

section

variable {α : Type}

/-- What is written behind a part, up to the closing bracket. -/
def writeMore (write : α → List Char → List Char) (closing : Char) (parts : List α)
    (rest : List Char) : List Char :=
  parts.foldr (fun a written => ',' :: write a written) (closing :: rest)

/-- What is written behind the opening bracket. -/
def writeParts (write : α → List Char → List Char) (closing : Char) (rest : List Char) :
    List α → List Char
  | [] => closing :: rest
  | a :: parts => write a (writeMore write closing parts rest)

theorem Value.writeItems_eq (items : List Value) (closing : Char) (rest : List Char) :
    Value.writeItems items (closing :: rest) = writeParts Value.write closing rest items := by
  cases items with
  | nil => rfl
  | cons v vs =>
    rw [writeParts]
    induction vs generalizing v with
    | nil => rfl
    | cons w vs ih => rw [writeItems, ih, writeMore, writeMore, List.foldr_cons]

theorem Value.writeMembers_eq (members : List Member) (closing : Char) (rest : List Char) :
    Value.writeMembers members (closing :: rest) =
      writeParts Value.writeMember closing rest members := by
  cases members with
  | nil => rfl
  | cons m ms =>
    rw [writeParts]
    induction ms generalizing m with
    | nil => rfl
    | cons n ms ih => rw [writeMembers, ih, writeMore, writeMore, List.foldr_cons]

/-- What is written of some parts spells them, if what is written of each part does. -/
theorem exists_sequenceText {Part : List Char → α → Prop} {write : α → List Char → List Char}
    {parts : List α} (each : ∀ a ∈ parts, ∃ t, Part t a ∧ ∀ rest, write a rest = t ++ rest) :
    ∃ t, SequenceText Part true t parts ∧
      ∀ closing rest, writeParts write closing rest parts = t ++ closing :: rest := by
  have more (later : List α) (each : ∀ a ∈ later, ∃ t, Part t a ∧ ∀ rest, write a rest = t ++ rest) :
      ∃ u, SequenceText Part false u later ∧
        ∀ closing rest, writeMore write closing later rest = u ++ closing :: rest := by
    induction later with
    | nil => exact ⟨[], .nil nofun, fun _ _ => rfl⟩
    | cons a later ih =>
      obtain ⟨⟨t, text, same⟩, others⟩ := List.forall_mem_cons.mp each
      obtain ⟨u, sequence, rest⟩ := ih others
      refine ⟨_, .next (a := []) nofun (.ofText text) sequence, fun closing behind => ?_⟩
      have written := rest closing behind
      rw [writeMore] at written ⊢
      rw [List.foldr_cons, written, same]
      simp
  cases parts with
  | nil => exact ⟨[], .nil nofun, fun _ _ => rfl⟩
  | cons a parts =>
    obtain ⟨⟨t, text, same⟩, others⟩ := List.forall_mem_cons.mp each
    obtain ⟨u, sequence, rest⟩ := more parts others
    refine ⟨t ++ u, .first (.ofText text) sequence, fun closing behind => ?_⟩
    rw [writeParts, rest, same, List.append_assoc]

end

theorem exists_valueText {v : Value} (whole : v.Exact) :
    ∃ t, ValueText t v ∧ ∀ rest, v.write rest = t ++ rest := by
  induction v using Value.byParts with
  | step v ih =>
    match v with
    | .null => exact ⟨_, .null, fun _ => rfl⟩
    | .boolean true => exact ⟨_, .isTrue, fun _ => rfl⟩
    | .boolean false => exact ⟨_, .isFalse, fun _ => rfl⟩
    | .text text =>
      obtain ⟨q, quoted, same⟩ := exists_quotedText text
      exact ⟨q, .text quoted, same⟩
    | .number (.natural n) =>
      exact ⟨_, .number (numeralText_toDigits n.toNat) (Numeral.value_toDigits n), fun _ => rfl⟩
    | .array items none =>
      have each : ∀ w ∈ items, ∃ t, ValueText t w ∧ ∀ rest, w.write rest = t ++ rest :=
        fun w hw => ih w hw (Value.allExact_iff.mp whole w hw)
      obtain ⟨t, sequence, same⟩ := exists_sequenceText each
      refine ⟨_, .array sequence, fun rest => ?_⟩
      rw [Value.write, Value.writeItems_eq, same]
      simp
    | .object members none =>
      have each : ∀ m ∈ members, ∃ t, MemberText t m ∧
          ∀ rest, Value.writeMember m rest = t ++ rest := by
        rintro ⟨key, w⟩ hm
        obtain ⟨q, quoted, key⟩ := exists_quotedText key
        obtain ⟨t, text, same⟩ := ih w (List.mem_map_of_mem hm) (Value.membersExact_iff.mp whole _ hm)
        refine ⟨_, .intro (a := []) quoted nofun (.ofText text), fun rest => ?_⟩
        rw [Value.writeMember, key, same]
        simp
      obtain ⟨t, sequence, same⟩ := exists_sequenceText each
      refine ⟨_, .object sequence, fun rest => ?_⟩
      rw [Value.write, Value.writeMembers_eq, same]
      simp

/-- What is written of a value is a text of its own that spells the value. -/
theorem documentText_written {v : Value} (whole : v.Exact) : DocumentText v.written.toList v := by
  obtain ⟨t, text, same⟩ := exists_valueText whole
  rw [Value.written, String.toList_ofList, same]
  exact .intro (.ofText text) nofun

/-- A text that holds a written value and nothing else is read as this value. -/
theorem read_written {v : Value} (whole : v.Exact) (enough : v.nesting < nestingLimit) :
    read v.written = (v, none) :=
  (documentText_written whole).read enough

end TreeQuery.Json
