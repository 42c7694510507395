import Mathlib.Data.List.Forall2
import TreeQuery.Proofs.Json.Plain
import TreeQuery.Query.Report

namespace TreeQuery

open TreeQuery.Json

/-- The lines of a text, each up to its line feed, and what stands behind the last line feed. -/
def linesOf (text : String) : List String × String :=
  let pieces := text.toList.splitOn '\n'
  (pieces.dropLast.map String.ofList, String.ofList (pieces.getLastD []))

section

variable {lines : List String}

theorem toList_join_lines (lines : List String) :
    (String.join (lines.map (· ++ "\n"))).toList =
      lines.flatMap fun line => line.toList ++ ['\n'] := by
  rw [String.toList_join, List.flatMap_map]
  simp

theorem splitOn_lines (single : ∀ line ∈ lines, '\n' ∉ line.toList) :
    (lines.flatMap fun line => line.toList ++ ['\n']).splitOn '\n' =
      lines.map String.toList ++ [[]] := by
  induction lines with
  | nil => rfl
  | cons line lines ih =>
    obtain ⟨first, others⟩ := List.forall_mem_cons.mp single
    have before : ∀ c ∈ line.toList, (c == '\n') = false := by
      intro c hc
      rw [beq_eq_false_iff_ne]
      rintro rfl
      exact first hc
    rw [List.flatMap_cons, List.append_assoc, List.singleton_append, List.splitOn_eq_splitOnP,
      List.splitOnP_append_cons_of_forall_mem before '\n' (beq_self_eq_true _),
      ← List.splitOn_eq_splitOnP, ih others]
    rfl

theorem linesOf_join (single : ∀ line ∈ lines, '\n' ∉ line.toList) :
    linesOf (String.join (lines.map (· ++ "\n"))) = (lines, "") := by
  unfold linesOf
  rw [toList_join_lines, splitOn_lines single]
  dsimp only
  rw [List.dropLast_concat, List.map_map, List.getLastD_concat]
  exact congrArg (·, _) (List.map_id'' (fun line => String.ofList_toList) lines)

theorem count_join (single : ∀ line ∈ lines, '\n' ∉ line.toList) :
    (String.join (lines.map (· ++ "\n"))).toList.count '\n' = lines.length := by
  rw [toList_join_lines]
  induction lines with
  | nil => rfl
  | cons line lines ih =>
    obtain ⟨first, others⟩ := List.forall_mem_cons.mp single
    rw [List.flatMap_cons, List.count_append, ih others, List.count_append,
      List.count_eq_zero_of_not_mem first, List.count_singleton_self, List.length_cons]
    omega

end

theorem join_line (line : String) : String.join [line ++ "\n"] = line ++ "\n" := by
  rw [String.join_cons, String.join_nil, String.append_empty]

/-- What a record says of a node. -/
structure Summary where
  name : String
  value : Option String
  offset : Option UInt64
  deriving DecidableEq

def Handle.summary (h : Handle) : Summary := ⟨h.name, h.value?, h.offset?⟩

namespace Json

def Value.natural? : Value → Option UInt64
  | .number (.natural n) => some n
  | _ => none

/-- The value of the first member with this key. -/
def valueOf? (key : String) (members : List Member) : Option Value :=
  (members.find? fun m => m.key = key).map Member.value

end Json

/-- Reads a record: an object with a name, and possibly with a value and an offset. -/
def Summary.ofText? (text : String) : Option Summary :=
  match Json.read text with
  | (.object members none, none) => do
    let name ← (valueOf? "name" members).bind Value.text?
    let value ← (valueOf? "value" members).mapM Value.text?
    let offset ← (valueOf? "offset" members).mapM Value.natural?
    some ⟨name, value, offset⟩
  | _ => none

section

variable (h : Handle)

/-- A record has one level and holds nothing but texts and whole numbers. -/
theorem Handle.record_eq : ∃ members, h.record = .object members none ∧
    ∀ m ∈ members, m.value.Exact ∧ m.value.nesting = 0 := by
  rw [record, Value.record]
  refine ⟨_, rfl, fun m hm => ?_⟩
  obtain ⟨⟨key, v⟩, here, rfl⟩ := List.mem_map.mp hm
  change v.Exact ∧ v.nesting = 0
  simp only [List.mem_append, List.mem_singleton, Option.mem_toList, Option.map_eq_some_iff,
    Prod.mk.injEq] at here
  rcases here with (⟨-, rfl⟩ | ⟨s, -, -, rfl⟩) | ⟨n, -, -, rfl⟩
  all_goals exact ⟨trivial, rfl⟩

theorem Handle.exact_record : h.record.Exact := by
  obtain ⟨members, record, leaves⟩ := h.record_eq
  rw [record]
  exact Value.membersExact_iff.mpr fun m hm => (leaves m hm).1

theorem Handle.nesting_record_le : h.record.nesting ≤ 1 := by
  obtain ⟨members, record, leaves⟩ := h.record_eq
  rw [record]
  exact Value.nesting_object_le (fun m hm => Nat.le_of_eq (leaves m hm).2) none

/-- A record is read back as what it says. -/
theorem Summary.ofText?_record : ofText? h.record.written = some h.summary := by
  have low := h.nesting_record_le
  unfold ofText?
  rw [Json.read_written h.exact_record (by rw [Json.nestingLimit]; omega), Handle.record,
    Value.record]
  cases value : h.value? <;> cases offset : h.offset? <;>
    simp [Handle.summary, value, offset, valueOf?, Value.text?, Value.natural?, Member.key,
      Member.value]

theorem Handle.record_congr {h k : Handle} (same : h.summary = k.summary) : h.record = k.record := by
  obtain ⟨name, value, offset⟩ := Summary.mk.inj same
  rw [record, record, name, value, offset]

theorem Handle.record_single : '\n' ∉ h.record.written.toList := by
  intro feed
  rw [Value.written, String.toList_ofList] at feed
  rcases Value.write_plain h.exact_record [] _ feed with none | plain
  · cases none
  · exact absurd plain (by decide)

end

namespace ReportMode

variable (matched : List Handle)

theorem single_nodes : ∀ line ∈ nodes.lines matched, '\n' ∉ line.toList := by
  intro line hl
  obtain ⟨h, -, rfl⟩ := List.mem_map.mp hl
  exact h.record_single

theorem linesOf_nodes : linesOf (nodes.report matched) = (nodes.lines matched, "") :=
  linesOf_join (single_nodes matched)

/-- The records of a report tell what the matches are like. -/
theorem summaries_nodes :
    (linesOf (nodes.report matched)).1.map Summary.ofText? =
      matched.map fun h => some h.summary := by
  rw [linesOf_nodes]
  change (matched.map _).map _ = _
  rw [List.map_map]
  exact List.map_congr_left fun h _ => Summary.ofText?_record h

theorem count_nodes : (nodes.report matched).toList.count '\n' = matched.length := by
  rw [report, count_join (single_nodes matched), lines, List.length_map]

theorem report_count :
    count.report matched = String.ofList (Nat.toDigits 10 matched.length) ++ "\n" := by
  rw [← Nat.repr_eq_ofList_toDigits]
  exact join_line _

theorem report_scalar :
    scalar.report matched = if matched.length = 1 then nodes.report matched else "null\n" := by
  match matched with
  | [] => rfl
  | [h] => rfl
  | _ :: _ :: _ => exact join_line "null"

/-- The values are those that the records tell of. -/
theorem report_values :
    values.report matched = String.join
      (((linesOf (nodes.report matched)).1.filterMap fun line =>
        (Summary.ofText? line).bind Summary.value).map (· ++ "\n")) := by
  have told : Handle.values matched = (nodes.lines matched).filterMap fun line =>
      (Summary.ofText? line).bind Summary.value := by
    rw [lines, List.filterMap_map, Handle.values]
    refine List.filterMap_congr fun h _ => ?_
    rw [Function.comp_apply, Summary.ofText?_record]
    rfl
  rw [linesOf_nodes, ← told]
  rfl

end ReportMode

/-- Two reports of nodes are the same just when their records say the same. -/
theorem ReportMode.nodes_eq_iff {matched others : List Handle} :
    nodes.report others = nodes.report matched ↔
      others.map Handle.summary = matched.map Handle.summary := by
  constructor
  · intro same
    have told : others.map (fun h => some h.summary) = matched.map fun h => some h.summary := by
      rw [← summaries_nodes, ← summaries_nodes, same]
    have some_injective : Function.Injective (List.map (some : Summary → Option Summary)) :=
      List.map_injective_iff.mpr fun _ _ => Option.some.inj
    apply some_injective
    rw [List.map_map, List.map_map]
    exact told
  · intro same
    rw [← List.forall₂_eq_eq_eq, List.forall₂_map_left_iff, List.forall₂_map_right_iff] at same
    have lines : nodes.lines others = nodes.lines matched := by
      rw [ReportMode.lines, ReportMode.lines, ← List.forall₂_eq_eq_eq, List.forall₂_map_left_iff,
        List.forall₂_map_right_iff]
      exact same.imp fun _ _ alike => congrArg Value.written (Handle.record_congr alike)
    rw [report, report, lines]

/-- A report succeeds just when the evaluation does, whatever it is to say of the matches. -/
theorem Expr.report_eq_ok_iff {e : Expr} {mode : ReportMode} {registry : Registry} {root : Handle}
    {text : String} {k : Nat} :
    e.report mode registry root = .ok (text, k) ↔
      ∃ matched, (e.evaluate registry root).value = .ok matched ∧ mode.report matched = text ∧
        matched.length = k := by
  rw [report]
  cases (e.evaluate registry root).value with
  | error error => exact ⟨nofun, nofun⟩
  | ok matched =>
    constructor
    · rintro ⟨⟩
      exact ⟨matched, rfl, rfl, rfl⟩
    · rintro ⟨_, ⟨⟩, rfl, rfl⟩
      rfl

/-- All reports of an expression agree. That of the nodes has a line for each match, from which its name,
value and offset are read back, so it tells all that the others do: how many there are, the record of the
only one, and the values of those that have one. -/
theorem reports_agree (e : Expr) (registry : Registry) (root : Handle) (mode : ReportMode)
    (text : String) (k : Nat) (succeeds : e.report mode registry root = .ok (text, k)) :
    ∃ matched records, (e.evaluate registry root).value = .ok matched ∧ matched.length = k ∧
      e.report .nodes registry root = .ok (records, k) ∧
      records.toList.count '\n' = k ∧ (linesOf records).2 = "" ∧
      (linesOf records).1.map Summary.ofText? = matched.map (fun h => some h.summary) ∧
      e.report .count registry root = .ok (String.ofList (Nat.toDigits 10 k) ++ "\n", k) ∧
      e.report .scalar registry root = .ok (if k = 1 then records else "null\n", k) ∧
      e.report .values registry root = .ok (String.join
        (((linesOf records).1.filterMap fun line =>
          (Summary.ofText? line).bind Summary.value).map (· ++ "\n")), k) ∧
      ∀ others : List Handle, ReportMode.nodes.report others = records ↔
        others.map Handle.summary = matched.map Handle.summary := by
  obtain ⟨matched, evaluated, -, rfl⟩ := Expr.report_eq_ok_iff.mp succeeds
  have reported (mode : ReportMode) {text : String} (same : mode.report matched = text) :
      e.report mode registry root = .ok (text, matched.length) :=
    Expr.report_eq_ok_iff.mpr ⟨matched, evaluated, same, rfl⟩
  exact ⟨matched, ReportMode.nodes.report matched, evaluated, rfl, reported .nodes rfl,
    ReportMode.count_nodes matched, by rw [ReportMode.linesOf_nodes],
    ReportMode.summaries_nodes matched, reported .count (ReportMode.report_count matched),
    reported .scalar (ReportMode.report_scalar matched),
    reported .values (ReportMode.report_values matched), fun _ => ReportMode.nodes_eq_iff⟩

theorem reports_agree_two :
    let t : Tree Label := ⟨{ name := "a" }, [.terminal "b" "x", .named "c"]⟩
    let e : Expr := .path false [.mk .child .any []]
    let root : Handle := .plain t.placed
    e.report .values .empty root = .ok ("x\n", 2) ∧
      e.report .count .empty root = .ok ("2\n", 2) ∧
      e.report .scalar .empty root = .ok ("null\n", 2) := by
  intro t e root
  have values : e.report .values .empty root = .ok ("x\n", 2) := by rfl
  obtain ⟨matched, records, -, -, -, -, -, -, count, scalar, -⟩ :=
    reports_agree e .empty root .values "x\n" 2 values
  exact ⟨values, count, scalar⟩

end TreeQuery
