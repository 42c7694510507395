import TreeQuery.Proofs.Path.Faults

namespace TreeQuery.Path

open TreeQuery.Text

theorem trimEnd_eq_nil_iff {text : List Char} : trimEnd text = [] ↔ ∀ c ∈ text, isBlank c := by
  rw [trimEnd, List.reverse_eq_nil_iff, List.dropWhile_eq_nil_iff]
  simp

theorem trimEnd_append (a b : List Char) :
    trimEnd (a ++ b) = if trimEnd b = [] then trimEnd a else a ++ trimEnd b := by
  simp only [trimEnd, List.reverse_append, List.dropWhile_append, List.isEmpty_iff,
    List.reverse_eq_nil_iff]
  split <;> simp

theorem trimEnd_eq (text : List Char) :
    trimEnd text = if trim text = [] then [] else text.takeWhile isBlank ++ trim text := by
  have front : trimEnd (text.takeWhile isBlank) = [] :=
    trimEnd_eq_nil_iff.mpr fun _ => List.mem_takeWhile_imp
  have whole := trimEnd_append (text.takeWhile isBlank) (trimStart text)
  rwa [trimStart, List.takeWhile_append_dropWhile, front] at whole

theorem trim_eq_nil_iff {text : List Char} : trim text = [] ↔ ∀ c ∈ text, isBlank c := by
  rw [← trimEnd_eq_nil_iff, trimEnd_eq]
  split <;> simp [*]

theorem exists_eq_trimEnd_append (text : List Char) :
    ∃ after, (∀ c ∈ after, isBlank c) ∧ text = trimEnd text ++ after := by
  refine ⟨(text.reverse.takeWhile isBlank).reverse, fun c hc => ?_, ?_⟩
  · exact List.mem_takeWhile_imp (List.mem_reverse.mp hc)
  · rw [trimEnd, ← List.reverse_append, List.takeWhile_append_dropWhile, List.reverse_reverse]

/-- Byte `offset` of `text` is where `rest` starts, which goes on up to the white space at the end. -/
structure PointsAt (text : List Char) (offset : Nat) (rest : List Char) : Prop where
  cut : ∃ front, splitBytes? offset (trimEnd text) = some (front, rest)
  betweenCharacters : (splitBytes? offset text).isSome
  exact : offset + byteLength rest = byteLength (trimEnd text)
  onlyBlank : (∀ c ∈ text, isBlank c) → offset = 0
  behindBlank : (∃ c ∈ text, ¬ isBlank c) → byteLength (text.takeWhile isBlank) ≤ offset

/-- What the parser leaves of the trimmed text can be pointed at by its length. -/
theorem pointsAt_of_trim {text front rest : List Char} (left : trim text = front ++ rest) :
    PointsAt text (byteLength (trimEnd text) - byteLength rest) rest := by
  obtain ⟨before, kept, behind⟩ : ∃ before, trimEnd text = before ++ rest ∧
      (trim text ≠ [] → byteLength (text.takeWhile isBlank) ≤ byteLength before) := by
    rw [trimEnd_eq]
    split
    · rename_i blank
      obtain ⟨-, rfl⟩ := List.append_eq_nil_iff.mp (left.symm.trans blank)
      exact ⟨[], rfl, fun more => absurd blank more⟩
    · refine ⟨text.takeWhile isBlank ++ front, by rw [left, List.append_assoc], fun _ => ?_⟩
      rw [byteLength_append]
      exact Nat.le_add_right ..
  have size : byteLength (trimEnd text) - byteLength rest = byteLength before := by
    rw [kept, byteLength_append, Nat.add_sub_cancel]
  obtain ⟨after, -, whole⟩ := exists_eq_trimEnd_append text
  rw [size]
  constructor
  · exact ⟨before, by rw [kept, splitBytes?_append]⟩
  · rw [whole, kept, List.append_assoc, splitBytes?_append]
    rfl
  · rw [kept, byteLength_append]
  · intro blank
    rw [trimEnd_eq_nil_iff.mpr blank] at kept
    rw [(List.append_eq_nil_iff.mp kept.symm).1]
    rfl
  · intro shown
    apply behind
    simpa [trim_eq_nil_iff] using shown

/-- The text goes on with something that is in no axis and in no node test. -/
def StartsNoStep (text : List Char) : Prop :=
  ∃ c more, text = c :: more ∧ c ≠ '/' ∧ c ≠ '.' ∧ c ≠ '*' ∧ ¬ isNameChar c

theorem startsNoStep_iff {text : List Char} : StartsNoStep text ↔ text ≠ [] ∧ ¬ Opens text := by
  cases text with
  | nil => simp [StartsNoStep]
  | cons c more =>
    have dot : c = '.' → isNameChar c := by
      rintro rfl
      decide
    simp only [StartsNoStep, Opens, List.cons.injEq]
    grind

theorem unmarked_eq_nil_iff {text : List Char} : unmarked text = [] ↔ text = [] ∨ text = ['/'] := by
  unfold unmarked
  split <;> simp_all

theorem not_opens_nil : ¬ Opens [] := by simp [Opens]

/-- The messages for a text that is no expression, with what each says about `rest`, the text from
the fault on. -/
inductive Explains (text rest : List Char) : String → Prop where
  | leftover (more : rest ≠ []) : Explains text rest
      ("Parser did not consume all input. Remainder: '" ++ String.ofList rest ++ "'")
  | ended (none : rest = []) (short : trim text = [] ∨ trim text = ['/']) :
    Explains text rest "Unexpected end of input"
  | unexpected (first : rest = unmarked (trim text)) (bad : StartsNoStep rest) :
    Explains text rest ("Unexpected input '" ++ String.ofList rest ++ "' (Verify)")
  | outOfRange {digits : List Char} (large : OutOfRange digits rest) :
    Explains text rest ("Position '" ++ String.ofList digits ++ "' is out of range")

/-- What is wrong where a reader misses something. -/
def absence (rest : List Char) (sought : Sought) : SyntaxFault :=
  if rest = [] then .unexpectedEnd else .unexpected (String.ofList rest) sought

/-- The ways in which a text is unreadable. -/
theorem parse_unreadable_cases {text named : String} {offset : Nat} {fault : SyntaxFault}
    (refused : Expr.parse text = .error (.unreadable named offset fault)) :
    named = text ∧ ∃ rest, offset = byteLength (trimEnd text.toList) - byteLength rest ∧
      ((∃ e, (readExpr (trim text.toList)).Takes e rest ∧ rest ≠ [] ∧
          fault = .leftover (String.ofList rest)) ∨
        (∃ sought, readExpr (trim text.toList) = .absent rest sought ∧
          fault = absence rest sought) ∨
        (∃ digits, readExpr (trim text.toList) = .broken (.positionOutOfRange digits rest) ∧
          fault = .positionOutOfRange (String.ofList digits))) := by
  unfold Expr.parse at refused
  dsimp only at refused
  split at refused
  · cases refused
  · rename_i e rest shorter more taken
    cases refused
    exact ⟨rfl, rest, rfl, .inl ⟨e, ⟨shorter, taken⟩, fun none => by simp_all, rfl⟩⟩
  · rename_i sought missed
    cases refused
    exact ⟨rfl, [], rfl, .inr (.inl ⟨sought, missed, rfl⟩)⟩
  · rename_i rest sought more missed
    cases refused
    exact ⟨rfl, rest, rfl, .inr (.inl ⟨sought, missed, (if_neg more).symm⟩)⟩
  · cases refused
  · cases refused
  · rename_i digits rest broken
    cases refused
    exact ⟨rfl, rest, rfl, .inr (.inr ⟨digits, broken, rfl⟩)⟩

theorem parse_of_missed {text : String} {rest : List Char} {sought : Sought}
    (missed : readExpr (trim text.toList) = .absent rest sought) :
    ∃ offset, Expr.parse text = .error (.unreadable text offset (absence rest sought)) := by
  refine ⟨byteLength (trimEnd text.toList) - byteLength rest, ?_⟩
  unfold Expr.parse
  dsimp only
  rw [missed]
  cases rest <;> rfl

/-- Texts that differ in their first `k` characters may go on as they like. -/
theorem append_ne_append {a b : String} (k : Nat)
    (differ : k ≤ a.toList.length ∧ k ≤ b.toList.length ∧ a.toList.take k ≠ b.toList.take k)
    (x y : String) : a ++ x ≠ b ++ y := by
  obtain ⟨inA, inB, differ⟩ := differ
  intro same
  apply differ
  have start := congrArg (fun s => s.toList.take k) same
  simpa only [String.toList_append, List.take_append_of_le_length, inA, inB] using start

theorem message_leftover (rest : String) : (SyntaxFault.leftover rest).message =
    "Parser did not consume all input. Remainder: '" ++ (rest ++ "'") :=
  String.append_assoc ..

theorem message_unexpected (rest : String) (sought : Sought) :
    (SyntaxFault.unexpected rest sought).message =
      "Unexpected input '" ++ (rest ++ ("' (" ++ (sought.name ++ ")"))) := by
  simp only [← String.append_assoc]
  rfl

theorem message_positionOutOfRange (digits : String) :
    (SyntaxFault.positionOutOfRange digits).message =
      "Position '" ++ (digits ++ "' is out of range") :=
  String.append_assoc ..

theorem eq_unexpectedEnd_of_message {fault : SyntaxFault}
    (same : fault.message = "Unexpected end of input") : fault = .unexpectedEnd := by
  rw [← String.append_empty (s := "Unexpected end of input")] at same
  cases fault with
  | leftover rest =>
    rw [message_leftover] at same
    exact absurd same (append_ne_append 1 (by decide +kernel) _ _)
  | unexpectedEnd => rfl
  | unexpected rest sought =>
    rw [message_unexpected] at same
    exact absurd same (append_ne_append 12 (by decide +kernel) _ _)
  | positionOutOfRange digits =>
    rw [message_positionOutOfRange] at same
    exact absurd same (append_ne_append 1 (by decide +kernel) _ _)

theorem eq_unexpected_of_message {fault : SyntaxFault} {rest : String}
    (same : fault.message = "Unexpected input '" ++ rest ++ "' (Verify)") :
    ∃ other sought, fault = .unexpected other sought := by
  rw [String.append_assoc] at same
  cases fault with
  | leftover other =>
    rw [message_leftover] at same
    exact absurd same (append_ne_append 1 (by decide +kernel) _ _)
  | unexpectedEnd =>
    change "Unexpected end of input" = _ at same
    rw [← String.append_empty (s := "Unexpected end of input")] at same
    exact absurd same (append_ne_append 12 (by decide +kernel) _ _)
  | unexpected other sought => exact ⟨other, sought, rfl⟩
  | positionOutOfRange digits =>
    rw [message_positionOutOfRange] at same
    exact absurd same (append_ne_append 1 (by decide +kernel) _ _)

theorem message_step (rest : String) :
    (SyntaxFault.unexpected rest .step).message = "Unexpected input '" ++ rest ++ "' (Verify)" := by
  have behind : "' (" ++ (Sought.step.name ++ ")") = "' (Verify)" := by decide +kernel
  rw [message_unexpected, behind, String.append_assoc]

/-- Something missed is the first step, and it is missed where it should start. -/
theorem absent_step {text stop : List Char} {sought : Sought}
    (missed : readExpr text = .absent stop sought) :
    ¬ Opens (unmarked text) ∧ stop = unmarked text ∧ sought = .step :=
  (readExpr_missesFirst text stop sought).mp missed

theorem parse_absence_iff (text : String) {fault : SyntaxFault}
    (kind : fault = .unexpectedEnd ∨ ∃ rest sought, fault = .unexpected rest sought) :
    (∃ offset, Expr.parse text = .error (.unreadable text offset fault)) ↔
      ¬ Opens (unmarked (trim text.toList)) ∧
        fault = absence (unmarked (trim text.toList)) .step := by
  constructor
  · intro refused
    obtain ⟨offset, refused⟩ := refused
    obtain ⟨-, rest, -, taken | missed | broken⟩ := parse_unreadable_cases refused
    · obtain ⟨e, -, -, rfl⟩ := taken
      simp at kind
    · obtain ⟨sought, missed, rfl⟩ := missed
      obtain ⟨shut, rfl, rfl⟩ := absent_step missed
      exact ⟨shut, rfl⟩
    · obtain ⟨digits, -, rfl⟩ := broken
      simp at kind
  · intro missed
    obtain ⟨shut, rfl⟩ := missed
    exact parse_of_missed ((readExpr_missesFirst _ _ _).mpr ⟨shut, rfl, rfl⟩)

theorem explains_of_unreadable {text named : String} {offset : Nat} {fault : SyntaxFault}
    (refused : Expr.parse text = .error (.unreadable named offset fault)) :
    named = text ∧ ∃ rest, PointsAt text.toList offset rest ∧
      Explains text.toList rest fault.message := by
  obtain ⟨rfl, rest, rfl, taken | missed | broken⟩ := parse_unreadable_cases refused
  · obtain ⟨e, taken, more, rfl⟩ := taken
    obtain ⟨t, -, whole⟩ := readExpr_sound _ taken
    exact ⟨rfl, rest, pointsAt_of_trim whole, .leftover more⟩
  · obtain ⟨sought, missed, rfl⟩ := missed
    obtain ⟨shut, rfl, rfl⟩ := absent_step missed
    obtain ⟨front, whole⟩ := exists_eq_append_unmarked (trim named.toList)
    refine ⟨rfl, _, pointsAt_of_trim whole, ?_⟩
    unfold absence
    split
    · rename_i none
      exact .ended none (unmarked_eq_nil_iff.mp none)
    · rename_i more
      rw [message_step]
      exact .unexpected rfl (startsNoStep_iff.mpr ⟨more, shut⟩)
  · obtain ⟨digits, broken, rfl⟩ := broken
    obtain ⟨large, front, whole⟩ := readExpr_blames _ broken
    exact ⟨rfl, rest, pointsAt_of_trim whole, .outOfRange large⟩

/-- The text ends too early just if nothing is in it but perhaps a slash. -/
theorem ended_iff (text : String) :
    (∃ offset fault, Expr.parse text = .error (.unreadable text offset fault) ∧
      fault.message = "Unexpected end of input") ↔
    trim text.toList = [] ∨ trim text.toList = ['/'] := by
  rw [← unmarked_eq_nil_iff]
  constructor
  · intro refused
    obtain ⟨offset, fault, refused, said⟩ := refused
    obtain rfl := eq_unexpectedEnd_of_message said
    obtain ⟨-, same⟩ := (parse_absence_iff text (.inl rfl)).mp ⟨offset, refused⟩
    by_contra more
    rw [absence, if_neg more] at same
    cases same
  · intro none
    obtain ⟨offset, refused⟩ := (parse_absence_iff text (.inl rfl)).mpr
      ⟨none ▸ not_opens_nil, (if_pos none).symm⟩
    exact ⟨offset, _, refused, rfl⟩

/-- Its first character is the wrong one just if no step starts with it. -/
theorem unexpected_iff (text : String) :
    (∃ offset fault rest, Expr.parse text = .error (.unreadable text offset fault) ∧
      fault.message = "Unexpected input '" ++ rest ++ "' (Verify)") ↔
    StartsNoStep (unmarked (trim text.toList)) := by
  rw [startsNoStep_iff]
  constructor
  · intro refused
    obtain ⟨offset, fault, rest, refused, said⟩ := refused
    obtain ⟨other, sought, rfl⟩ := eq_unexpected_of_message said
    obtain ⟨shut, same⟩ := (parse_absence_iff text (.inr ⟨_, _, rfl⟩)).mp ⟨offset, refused⟩
    refine ⟨fun none => ?_, shut⟩
    rw [absence, if_pos none] at same
    cases same
  · intro bad
    obtain ⟨more, shut⟩ := bad
    obtain ⟨offset, refused⟩ := (parse_absence_iff text (.inr ⟨_, _, rfl⟩)).mpr
      ⟨shut, (if_neg more).symm⟩
    exact ⟨offset, _, _, refused, message_step _⟩

/-- A text is refused at a place in it: the offset cuts it between characters, the message is about
the text from there on, and only these messages occur. Which of them says that the text ends too
early, and which that it starts wrongly, can be told from the text alone. -/
theorem faults_point_at_text (text : String) :
    (∀ named offset fault, Expr.parse text = .error (.unreadable named offset fault) →
      named = text ∧ ∃ rest, PointsAt text.toList offset rest ∧
        Explains text.toList rest fault.message) ∧
    ((∃ offset fault, Expr.parse text = .error (.unreadable text offset fault) ∧
        fault.message = "Unexpected end of input") ↔
      trim text.toList = [] ∨ trim text.toList = ['/']) ∧
    ((∃ offset fault rest, Expr.parse text = .error (.unreadable text offset fault) ∧
        fault.message = "Unexpected input '" ++ rest ++ "' (Verify)") ↔
      StartsNoStep (unmarked (trim text.toList))) :=
  ⟨fun _ _ _ => explains_of_unreadable, ended_iff text, unexpected_iff text⟩

theorem faults_point_at_text_leftover :
    Expr.parse "  foo bar" = .error (.unreadable "  foo bar" 5 (.leftover " bar")) ∧
    ∃ rest, PointsAt "  foo bar".toList 5 rest ∧
      Explains "  foo bar".toList rest (SyntaxFault.leftover " bar").message := by
  have refused : Expr.parse "  foo bar" = .error (.unreadable "  foo bar" 5 (.leftover " bar")) :=
    by decide +kernel
  exact ⟨refused, ((faults_point_at_text "  foo bar").1 _ _ _ refused).2⟩

/-- A number that is too large is told with one word more than `out of range`, so that its message
is of none of these forms. -/
theorem out_of_range_wording :
    Expr.parse "a[18446744073709551616]" =
      .error (.unreadable "a[18446744073709551616]" 2
        (.positionOutOfRange "18446744073709551616")) ∧
    ∀ rest digits, (SyntaxFault.positionOutOfRange "18446744073709551616").message ∉
      ["Parser did not consume all input. Remainder: '" ++ rest ++ "'", "Unexpected end of input",
        "Unexpected input '" ++ rest ++ "' (Verify)", "Position '" ++ digits ++ "' out of range"] := by
  refine ⟨by decide +kernel, fun rest digits said => ?_⟩
  simp only [List.mem_cons, List.not_mem_nil, or_false] at said
  rcases said with said | said | said | said
  · rw [message_positionOutOfRange, String.append_assoc] at said
    exact append_ne_append 2 (by decide +kernel) _ _ said
  · exact absurd (eq_unexpectedEnd_of_message said) (by simp)
  · obtain ⟨_, _, kind⟩ := eq_unexpected_of_message said
    cases kind
  · have ends : "' out of range".toList <:+ ("Position '" ++ digits ++ "' out of range").toList :=
      ⟨_, String.toList_append.symm⟩
    rw [← said] at ends
    revert ends
    decide +kernel

end TreeQuery.Path
