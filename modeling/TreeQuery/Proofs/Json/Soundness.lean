import TreeQuery.Proofs.Json.Token
import TreeQuery.Proofs.Json.Value

namespace TreeQuery.Json

/-- What was read is spelled in front of what is left, unless it holds a fault. -/
def Scan.Sound {α : Type} {s : List Char} (Text : List Char → α → Prop) (fault? : α → Option Fault)
    (read : Scan α s) : Prop :=
  fault? read.value = none →
    ∃ t rest, s = t ++ rest ∧ Text t read.value ∧ read.rest.map (·.1) = some rest

theorem readWord_sound {v : Value} {c : Char} {word : List Char} (text : ValueText (c :: word) v)
    (s : List Char) : (readWord v word (c := c) s).Sound ValueText Value.fault? := by
  intro whole
  unfold readWord at whole ⊢
  split at whole
  · rename_i found
    exact ⟨c :: word, _, congrArg _ (takeWord_eq_ok_iff.mp found), text, by simp⟩
  · cases whole

theorem readNumber_sound (s : List Char) : (readNumber s).Sound ValueText Value.fault? := by
  intro whole
  unfold readNumber at whole ⊢
  split at whole
  · cases whole
  · rename_i taken
    obtain ⟨t, front, text⟩ := takeNumeral_sound taken
    split at whole
    · rename_i value
      exact ⟨t, _, front, .number text value, rfl⟩
    · cases whole

section

variable {α : Type} {Part : List Char → α → Prop} {fault? : α → Option Fault}

theorem findNext_closed_sound {closing : Char} {first : Bool} {s rest : List Char}
    {shorter : rest.length < s.length} (h : findNext closing first s = .closed rest shorter) :
    ∃ a, s = a ++ closing :: rest ∧ Blanks a := by
  obtain ⟨a, blank, whole⟩ := exists_blanks s
  unfold findNext at h
  split at h
  · cases h
  · rename_i c rest' skip
    rw [skip] at whole
    split at h
    · rename_i same
      cases h
      exact ⟨a, same ▸ whole, blank⟩
    · split at h
      · cases h
      · split at h <;> cases h

theorem findNext_part_sound {closing : Char} {first : Bool} {s t : List Char}
    {notLonger : t.length ≤ s.length} (h : findNext closing first s = .part t notLonger) :
    ∃ a, Blanks a ∧ s = if first then a ++ t else a ++ ',' :: t := by
  obtain ⟨a, blank, whole⟩ := exists_blanks s
  unfold findNext at h
  split at h
  · cases h
  · rename_i c rest' skip
    rw [skip] at whole
    split at h
    · cases h
    · split at h
      · rename_i isFirst
        cases h
        exact ⟨a, blank, by rw [if_pos isFirst]; exact whole⟩
      · rename_i notFirst
        split at h
        · rename_i comma
          cases h
          exact ⟨a, blank, by rw [if_neg notFirst, ← comma]; exact whole⟩
        · cases h

theorem AfterBlanks.append {a t : List Char} {part : α} (blank : Blanks a)
    (text : AfterBlanks Part t part) : AfterBlanks Part (a ++ t) part := by
  obtain ⟨before, text⟩ := text
  rw [← List.append_assoc]
  exact .intro (blank.append before) text

theorem readSequence_sound {bound : Nat}
    {part : (t : List Char) → t.length < bound → Except Fault (Scan α t)}
    (each : ∀ t shorter read, part t shorter = .ok read → read.Sound (AfterBlanks Part) fault?)
    {closing : Char} {first : Bool} {s : List Char} {h : s.length < bound}
    (whole : ∀ a ∈ (readSequence part closing first s h).parts, fault? a = none)
    (noFault : (readSequence part closing first s h).fault = none) :
    ∃ t rest, s = t ++ closing :: rest ∧
      SequenceText Part first t (readSequence part closing first s h).parts ∧
      (readSequence part closing first s h).rest.map (·.1) = some rest := by
  fun_induction readSequence part closing first s h with
  | case1 => cases noFault
  | case2 first s h rest shorter next =>
    obtain ⟨a, rfl, blank⟩ := findNext_closed_sound next
    exact ⟨a, rest, rfl, .nil blank, rfl⟩
  | case3 => cases noFault
  | case4 first s h t notLonger next value read =>
    -- a part that is whole does not break off
    obtain ⟨t, rest, -, -, left⟩ := each _ _ _ read (whole value (List.mem_singleton_self value))
    cases left
  | case5 first s h t notLonger next value rest shorter read more ih =>
    obtain ⟨one, others⟩ := List.forall_mem_cons.mp whole
    obtain ⟨u, rest', rfl, text, left⟩ := each _ _ _ read one
    have same : rest = rest' := Option.some.inj left
    subst same
    obtain ⟨w, rest', rfl, later, left⟩ := ih others noFault
    obtain ⟨a, blank, front⟩ := findNext_part_sound next
    cases first with
    | true =>
      refine ⟨a ++ u ++ w, rest', ?_, .first (text.append blank) later, ?_⟩
      · rw [front]
        simp
      · simpa using left
    | false =>
      refine ⟨a ++ ',' :: (u ++ w), rest', ?_, .next blank text later, ?_⟩
      · rw [front]
        simp
      · simpa using left

end

section

variable {bound : Nat} {inner : (t : List Char) → t.length < bound → Scan Value t}
  (sound : ∀ t shorter, (inner t shorter).Sound (AfterBlanks ValueText) Value.fault?)

include sound

theorem readMember_sound (s : List Char) (h : s.length < bound) (read : Scan Member s)
    (member : readMember inner s h = .ok read) :
    read.Sound (AfterBlanks MemberText) fun m => m.value.fault? := by
  intro whole
  unfold readMember at member
  split at member
  · cases member
  · rename_i t quote
    dsimp only at member
    split at member
    · cases member
    · rename_i key t' text
      obtain ⟨q, quoted, key⟩ := takeText_nil_eq_ok_iff.mp text
      obtain ⟨a, before, front⟩ := exists_blanks s
      obtain ⟨b, after, behind⟩ := exists_blanks t'
      split at member
      · cases member
        cases whole
      · rename_i t'' colon
        cases member
        obtain ⟨u, rest, spelled, value, left⟩ := sound _ _ whole
        refine ⟨a ++ (q ++ (b ++ ':' :: u)), rest, ?_, .intro before (.intro key after value), ?_⟩
        · rw [front, quote, quoted, behind, colon, spelled]
          simp
        · simpa using left
      · cases member
        cases whole
  · cases member

theorem readBare_sound (mayNest : Bool) (s : List Char) (h : s.length ≤ bound) :
    (readBare inner mayNest s h).Sound ValueText Value.fault? := by
  unfold readBare
  split
  case h_1 => exact nofun
  case h_2 t h =>
    split
    · rename_i text
      obtain ⟨q, quoted, text⟩ := takeText_nil_eq_ok_iff.mp text
      exact fun _ => ⟨q, _, quoted, .text text, rfl⟩
    · exact nofun
  case h_3 t h =>
    split
    · intro whole
      rw [Value.fault?, Option.or_eq_none_iff, Value.faults?_eq_none_iff] at whole
      obtain ⟨u, rest, rfl, sequence, left⟩ := readSequence_sound
        (fun u shorter read eq => by
          cases eq
          exact sound u shorter) whole.1 whole.2
      dsimp only at whole ⊢
      rw [whole.2]
      refine ⟨_, rest, ?_, .array sequence, by simpa using left⟩
      simp
    · exact nofun
  case h_4 t h =>
    split
    · intro whole
      rw [Value.fault?, Option.or_eq_none_iff, Value.memberFaults?_eq_none_iff] at whole
      obtain ⟨u, rest, rfl, sequence, left⟩ :=
        readSequence_sound (readMember_sound sound) whole.1 whole.2
      dsimp only at whole ⊢
      rw [whole.2]
      refine ⟨_, rest, ?_, .object sequence, by simpa using left⟩
      simp
    · exact nofun
  case h_5 => exact readWord_sound .null _
  case h_6 => exact readWord_sound .isTrue _
  case h_7 => exact readWord_sound .isFalse _
  case h_8 =>
    split
    · exact readNumber_sound _
    · exact nofun

end

theorem readValue_sound (levels : Nat) (s : List Char) :
    (readValue levels s).Sound (AfterBlanks ValueText) Value.fault? := by
  induction hn : s.length using Nat.strongRecOn generalizing levels s with
  | ind n ih =>
    have inner (t : List Char) (shorter : t.length < (skipBlanks s).length) :
        (readValue (levels - 1) t).Sound (AfterBlanks ValueText) Value.fault? :=
      ih t.length (hn ▸ Nat.lt_of_lt_of_le shorter (length_skipBlanks_le s)) _ t rfl
    obtain ⟨a, blank, front⟩ := exists_blanks s
    rw [readValue]
    intro whole
    obtain ⟨t, rest, bare, text, left⟩ :=
      readBare_sound inner (1 < levels) (skipBlanks s) (Nat.le_refl _) whole
    refine ⟨a ++ t, rest, ?_, .intro blank text, by simpa using left⟩
    rw [front, bare, List.append_assoc]

/-- A text that is read without a fault, and has nothing else behind it, spells the value read. -/
theorem documentText_read {text : String} {v : Value} (h : read text = (v, none))
    (whole : v.fault? = none) : DocumentText text.toList v := by
  have sound := readValue_sound nestingLimit text.toList
  unfold read at h
  split at h
  · rename_i broken
    cases h
    rw [broken] at sound
    obtain ⟨t, rest, -, -, left⟩ := sound whole
    cases left
  · rename_i value rest shorter found
    rw [found] at sound
    split at h
    · rename_i blank
      cases h
      obtain ⟨t, rest', front, text, left⟩ := sound whole
      have same : rest = rest' := Option.some.inj left
      subst same
      obtain ⟨b, after, behind⟩ := exists_blanks rest
      rw [blank, List.append_nil] at behind
      rw [front, behind]
      exact .intro text after
    · cases h

end TreeQuery.Json
