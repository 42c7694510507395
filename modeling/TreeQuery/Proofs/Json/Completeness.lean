import TreeQuery.Proofs.Json.Nesting
import TreeQuery.Proofs.Json.Soundness

namespace TreeQuery.Json

open TreeQuery.Path (Stops stops_nil stops_cons)

/-- A reader got `a` and left `rest`. -/
def Scan.Gets {α : Type} {s : List Char} (read : Scan α s) (a : α) (rest : List Char) : Prop :=
  read.value = a ∧ read.rest.map (·.1) = some rest

/-- A reader of several parts got all of these and left `rest`. -/
def Sequence.Gets {α : Type} {s : List Char} (read : Sequence α s) (parts : List α)
    (rest : List Char) : Prop :=
  read.parts = parts ∧ read.fault = none ∧ read.rest.map (·.1) = some rest

/-- Whether a part may start here, and no closing bracket. -/
def StartsPart (closing : Char) (s : List Char) : Prop :=
  ∃ c t, s = c :: t ∧ ¬ isBlank c ∧ c ≠ closing

theorem StartsPart.append {closing : Char} {s : List Char} (h : StartsPart closing s)
    (rest : List Char) : StartsPart closing (s ++ rest) := by
  obtain ⟨c, t, rfl, blank, other⟩ := h
  exact ⟨c, t ++ rest, rfl, blank, other⟩

theorem StartsPart.skipBlanks {closing : Char} {s : List Char} (h : StartsPart closing s) :
    skipBlanks s = s := by
  obtain ⟨c, t, rfl, blank, -⟩ := h
  exact skipBlanks_cons blank t

/-- Whether parts may end with this bracket. -/
def Closes (closing : Char) : Prop :=
  ¬ isBlank closing ∧ ',' ≠ closing ∧ ¬ continuesNumber closing

instance (closing : Char) : Decidable (Closes closing) := inferInstanceAs (Decidable (_ ∧ _))

theorem Blanks.stops_continuesNumber {a s : List Char} (blank : Blanks a)
    (ends : Stops continuesNumber s) : Stops continuesNumber (a ++ s) := by
  cases a with
  | nil => exact ends
  | cons c a =>
    refine stops_cons.mpr ?_
    have first := blank c (List.mem_cons_self ..)
    simp only [isBlank, Bool.or_eq_true, decide_eq_true_eq] at first
    rcases first with ((rfl | rfl) | rfl) | rfl <;> decide

theorem AfterBlanks.ofText {α : Type} {Part : List Char → α → Prop} {t : List Char} {a : α}
    (text : Part t a) : AfterBlanks Part t a := .intro (a := []) nofun text

theorem SequenceText.stops_continuesNumber {α : Type} {Part : List Char → α → Prop}
    {u : List Char} {parts : List α} (text : SequenceText Part false u parts) {closing : Char}
    (closes : Closes closing) (rest : List Char) :
    Stops continuesNumber (u ++ closing :: rest) := by
  cases text with
  | nil blank => exact blank.stops_continuesNumber (stops_cons.mpr closes.2.2)
  | next before =>
    rw [List.append_assoc]
    exact before.stops_continuesNumber (stops_cons.mpr (by decide))

theorem QuotedText.takes {q : List Char} {text : String} (quoted : QuotedText q text)
    (rest : List Char) : ∃ body, q ++ rest = '"' :: body ∧ takeText [] body = .ok (text, rest) := by
  have found := quoted
  obtain ⟨chars⟩ := quoted
  exact ⟨_, rfl, takeText_nil_eq_ok_iff.mpr ⟨_, rfl, found⟩⟩

theorem NumeralText.head {t : List Char} {n : Numeral} (text : NumeralText t n) :
    ∃ c u, t = c :: u ∧ (c = '-' ∨ c.isDigit) := by
  cases text with
  | negative => exact ⟨_, _, rfl, .inl rfl⟩
  | unsigned text =>
    obtain ⟨c, u, rfl, digit⟩ := text.isDigit_head
    exact ⟨c, u, rfl, .inr digit⟩

theorem isBlank_not_of_number {c : Char} (h : c = '-' ∨ c.isDigit) : ¬ isBlank c := by
  intro blank
  simp only [isBlank, Bool.or_eq_true, decide_eq_true_eq] at blank
  rcases blank with ((rfl | rfl) | rfl) | rfl <;> exact absurd h (by decide)

theorem ValueText.startsPart {t : List Char} {v : Value} (text : ValueText t v) :
    StartsPart ']' t := by
  cases text with
  | text quoted =>
    obtain ⟨chars⟩ := quoted
    exact ⟨_, _, rfl, by decide, by decide⟩
  | number text =>
    obtain ⟨c, u, rfl, first⟩ := text.head
    refine ⟨c, u, rfl, isBlank_not_of_number first, ?_⟩
    rintro rfl
    exact absurd first (by decide)
  | _ => exact ⟨_, _, rfl, by decide, by decide⟩

theorem MemberText.startsPart {t : List Char} {m : Member} (text : MemberText t m) :
    StartsPart '\x7d' t := by
  obtain ⟨quoted, before, value⟩ := text
  obtain ⟨chars⟩ := quoted
  exact ⟨_, _, rfl, by decide, by decide⟩

theorem skipBlanks_shorter {s : List Char} {c : Char} {rest : List Char}
    (skip : skipBlanks s = c :: rest) : rest.length < s.length := by
  have bound := length_skipBlanks_le s
  rw [skip, List.length_cons] at bound
  omega

/-- What stands after some parts. -/
theorem findNext_eq {s : List Char} {c : Char} {rest : List Char} (skip : skipBlanks s = c :: rest)
    (closing : Char) (first : Bool) :
    findNext closing first s =
      if c = closing then .closed rest (skipBlanks_shorter skip)
      else if first then .part (c :: rest) (skipBlanks_shorter skip)
      else if c = ',' then .part rest (Nat.le_of_lt (skipBlanks_shorter skip))
      else .fault .malformed := by
  unfold findNext
  split
  · rename_i none
    rw [skip] at none
    cases none
  · rename_i same
    rw [skip] at same
    cases same
    rfl

theorem findNext_first {closing : Char} {s t : List Char} (skip : skipBlanks s = t)
    (start : StartsPart closing t) :
    ∃ notLonger, findNext closing true s = .part t notLonger := by
  obtain ⟨c, t, rfl, -, other⟩ := start
  rw [findNext_eq skip, if_neg other, if_pos rfl]
  exact ⟨_, rfl⟩

theorem findNext_comma {closing : Char} (closes : Closes closing) {s t : List Char}
    (skip : skipBlanks s = ',' :: t) :
    ∃ notLonger, findNext closing false s = .part t notLonger := by
  rw [findNext_eq skip, if_neg closes.2.1, if_neg nofun, if_pos rfl]
  exact ⟨_, rfl⟩

section

variable {α : Type} {bound : Nat} {closing : Char} {Part : List Char → α → Prop}
  {part : (t : List Char) → t.length < bound → Except Fault (Scan α t)}

theorem readSequence_closed {s rest : List Char} (skip : skipBlanks s = closing :: rest)
    (first : Bool) (h : s.length < bound) :
    (readSequence part closing first s h).Gets [] rest := by
  rw [readSequence, findNext_eq skip, if_pos rfl]
  exact ⟨rfl, rfl, rfl⟩

theorem readSequence_cons {first : Bool} {s t rest rest' : List Char} {h : s.length < bound}
    {notLonger : t.length ≤ s.length} (next : findNext closing first s = .part t notLonger)
    {read : Scan α t} (one : part t (Nat.lt_of_le_of_lt notLonger h) = .ok read)
    {a : α} {parts : List α} (gets : read.Gets a rest)
    (more : ∀ h, (readSequence part closing false rest h).Gets parts rest') :
    (readSequence part closing first s h).Gets (a :: parts) rest' := by
  rw [readSequence, next]
  dsimp only
  rw [one]
  obtain ⟨value, left⟩ := read
  obtain ⟨rfl, eq⟩ := gets
  cases left with
  | none => cases eq
  | some left =>
    obtain ⟨left, shorter⟩ := left
    have same : left = rest := Option.some.inj eq
    subst same
    obtain ⟨parts, fault, last⟩ := more (by omega)
    exact ⟨congrArg _ parts, fault, by simpa using last⟩

/-- A reader of parts gets this one from whatever spells it, wherever a number could end. -/
def Reads (Part : List Char → α → Prop)
    (part : (t : List Char) → t.length < bound → Except Fault (Scan α t)) (a : α) : Prop :=
  ∀ t, AfterBlanks Part t a → ∀ rest, Stops continuesNumber rest →
    ∀ h : (t ++ rest).length < bound, ∃ read, part (t ++ rest) h = .ok read ∧ read.Gets a rest

theorem readSequence_complete (closes : Closes closing)
    (starts : ∀ t a, Part t a → StartsPart closing t) {first : Bool} {t : List Char}
    {parts : List α} (text : SequenceText Part first t parts)
    (each : ∀ a ∈ parts, Reads Part part a) {s rest : List Char} (whole : s = t ++ closing :: rest)
    (h : s.length < bound) : (readSequence part closing first s h).Gets parts rest := by
  induction text generalizing s with
  | nil blank =>
    refine readSequence_closed ?_ _ h
    rw [whole, skipBlanks_append blank, skipBlanks_cons closes.1]
  | first text more ih =>
    obtain ⟨one, others⟩ := List.forall_mem_cons.mp each
    obtain ⟨before, text⟩ := text
    rename_i u _ _ _ t
    have start := (starts _ _ text).append (u ++ closing :: rest)
    have skip : skipBlanks s = t ++ (u ++ closing :: rest) := by
      rw [whole, List.append_assoc, List.append_assoc, skipBlanks_append before, start.skipBlanks]
    obtain ⟨notLonger, next⟩ := findNext_first skip start
    obtain ⟨read, found, gets⟩ := one _ (.ofText text) _ (more.stops_continuesNumber closes rest)
      (Nat.lt_of_le_of_lt notLonger h)
    exact readSequence_cons next found gets fun h => ih others rfl h
  | next before text more ih =>
    obtain ⟨one, others⟩ := List.forall_mem_cons.mp each
    rename_i a t u _ _
    have skip : skipBlanks s = ',' :: (t ++ (u ++ closing :: rest)) := by
      rw [whole, List.append_assoc, skipBlanks_append before, List.cons_append, List.append_assoc,
        skipBlanks_cons (by decide)]
    obtain ⟨notLonger, next⟩ := findNext_comma closes skip
    obtain ⟨read, found, gets⟩ := one _ text _ (more.stops_continuesNumber closes rest)
      (Nat.lt_of_le_of_lt notLonger h)
    exact readSequence_cons next found gets fun h => ih others rfl h

end

section

variable {bound : Nat} {inner : (t : List Char) → t.length < bound → Scan Value t}

theorem readMember_gets {s t t' t'' rest : List Char} {key : String} {v : Value}
    (quote : skipBlanks s = '"' :: t) (text : takeText [] t = .ok (key, t'))
    (colon : skipBlanks t' = ':' :: t'') (gets : ∀ h, (inner t'' h).Gets v rest)
    (h : s.length < bound) :
    ∃ read, readMember inner s h = .ok read ∧ read.Gets (.mk key v) rest := by
  unfold readMember
  split
  · rename_i none
    rw [quote] at none
    cases none
  · rename_i found
    rw [quote] at found
    cases found
    dsimp only
    split
    · rename_i broken
      rw [text] at broken
      cases broken
    · rename_i found
      rw [text] at found
      cases found
      split
      · rename_i none
        rw [colon] at none
        cases none
      · rename_i found
        rw [colon] at found
        cases found
        exact ⟨_, rfl, congrArg _ (gets _).1, by simpa using (gets _).2⟩
      · rename_i other
        exact (other _ colon).elim
  · rename_i other
    exact (other _ quote).elim

/-- A reader of values gets this one from whatever spells it. -/
def Gives (inner : (t : List Char) → t.length < bound → Scan Value t) (v : Value) : Prop :=
  ∀ t, AfterBlanks ValueText t v → ∀ rest, Stops continuesNumber rest →
    ∀ h : (t ++ rest).length < bound, (inner (t ++ rest) h).Gets v rest

theorem readMember_complete {m : Member} (gives : Gives inner m.value) :
    Reads MemberText (readMember inner) m := by
  rintro t ⟨before, text⟩ rest ends h
  rename_i a t
  obtain ⟨quoted, between, value⟩ := text
  rename_i q b t key v
  obtain ⟨body, front, taken⟩ := quoted.takes (b ++ ':' :: t ++ rest)
  refine readMember_gets ?_ taken ?_ (fun h => gives t value rest ends h) h
  · rw [List.append_assoc, skipBlanks_append before, List.append_assoc, front]
    exact skipBlanks_cons (by decide) _
  · rw [List.append_assoc, skipBlanks_append between]
    exact skipBlanks_cons (by decide) _

theorem readWord_complete {v : Value} {word : List Char} (c : Char) (rest : List Char) :
    (readWord v word (c := c) (word ++ rest)).Gets v rest := by
  have taken : takeWord word (word ++ rest) = .ok rest := takeWord_eq_ok_iff.mpr rfl
  unfold readWord
  split
  · rename_i found
    rw [taken] at found
    cases found
    exact ⟨rfl, rfl⟩
  · rename_i broken
    rw [taken] at broken
    cases broken

theorem readNumber_complete {t rest : List Char} {numeral : Numeral} {n : Number}
    (text : NumeralText t numeral) (value : numeral.value = .ok n)
    (ends : Stops continuesNumber rest) :
    (readNumber (t ++ rest)).Gets (.number n) rest := by
  have taken := takeNumeral_complete text ends
  unfold readNumber
  split
  · rename_i broken
    rw [taken] at broken
    cases broken
  · rename_i found
    rw [taken] at found
    cases found
    rw [value]
    exact ⟨rfl, rfl⟩

theorem readBare_number {mayNest : Bool} {s rest : List Char} {v : Value}
    (first : ∃ c t, s = c :: t ∧ (c = '-' ∨ c.isDigit)) (gets : (readNumber s).Gets v rest)
    (h : s.length ≤ bound) : (readBare inner mayNest s h).Gets v rest := by
  obtain ⟨c, t, rfl, first⟩ := first
  rw [readBare]
  · rw [if_pos first]
    exact gets
  all_goals
    rintro rfl
    exact absurd first (by decide)

theorem readBare_text {mayNest : Bool} {s body rest : List Char} {text : String}
    (quoted : s = '"' :: body) (taken : takeText [] body = .ok (text, rest))
    (h : s.length ≤ bound) : (readBare inner mayNest s h).Gets (.text text) rest := by
  subst quoted
  rw [readBare]
  split
  · rename_i found
    rw [taken] at found
    cases found
    exact ⟨rfl, rfl⟩
  · rename_i broken
    rw [taken] at broken
    cases broken

theorem readBare_array {items : List Value} {s rest : List Char} (h : ('[' :: s).length ≤ bound)
    (gets : (readSequence (fun u (shorter : u.length < bound) => .ok (inner u shorter)) ']' true
      s h).Gets items rest) :
    (readBare inner true ('[' :: s) h).Gets (.array items none) rest := by
  obtain ⟨rfl, fault, left⟩ := gets
  rw [readBare, if_pos rfl]
  exact ⟨congrArg _ fault, by simpa using left⟩

theorem readBare_object {members : List Member} {s rest : List Char}
    (h : ('\x7b' :: s).length ≤ bound)
    (gets : (readSequence (readMember inner) '\x7d' true s h).Gets members rest) :
    (readBare inner true ('\x7b' :: s) h).Gets (.object members none) rest := by
  obtain ⟨rfl, fault, left⟩ := gets
  rw [readBare, if_pos rfl]
  exact ⟨congrArg _ fault, by simpa using left⟩

/-- The values inside are read with one level less than the brackets around them. -/
theorem readBare_complete {t rest : List Char} {v : Value} (text : ValueText t v)
    (ends : Stops continuesNumber rest) {levels : Nat} (enough : v.nesting < levels)
    (gives : ∀ w ∈ v.parts, w.nesting < levels - 1 → Gives inner w)
    (h : (t ++ rest).length ≤ bound) :
    (readBare inner (1 < levels) (t ++ rest) h).Gets v rest := by
  cases text with
  | null => exact readWord_complete 'n' rest
  | isTrue => exact readWord_complete 't' rest
  | isFalse => exact readWord_complete 'f' rest
  | number text value =>
    obtain ⟨c, u, front, first⟩ := text.head
    exact readBare_number ⟨c, u ++ rest, congrArg (· ++ rest) front, first⟩
      (readNumber_complete text value ends) h
  | text quoted =>
    obtain ⟨body, front, taken⟩ := quoted.takes rest
    exact readBare_text front taken h
  | array sequence =>
    rename_i t items
    rw [Value.nesting] at enough
    have nests : decide (1 < levels) = true := decide_eq_true (by omega)
    rw [nests]
    refine readBare_array _ (readSequence_complete (by decide) (fun _ _ => ValueText.startsPart)
      sequence (fun w hw t text rest ends h => ?_) (List.append_assoc ..) _)
    have := Value.nesting_le_nestings hw
    exact ⟨_, rfl, gives w hw (by omega) t text rest ends h⟩
  | object sequence =>
    rename_i t members
    rw [Value.nesting] at enough
    have nests : decide (1 < levels) = true := decide_eq_true (by omega)
    rw [nests]
    refine readBare_object _ (readSequence_complete (by decide) (fun _ _ => MemberText.startsPart)
      sequence (fun m hm => ?_) (List.append_assoc ..) _)
    have := Value.nesting_le_memberNestings hm
    exact readMember_complete (gives m.value (List.mem_map_of_mem hm) (by omega))

end

theorem readValue_gets {levels : Nat} {s t rest : List Char} {v : Value} (skip : skipBlanks s = t)
    (gets : (readBare (fun u (_ : u.length < t.length) => readValue (levels - 1) u) (1 < levels) t
      (Nat.le_refl _)).Gets v rest) : (readValue levels s).Gets v rest := by
  subst skip
  rw [readValue]
  exact ⟨gets.1, by simpa using gets.2⟩

/-- With levels enough, a value is read from whatever spells it, up to what follows. -/
theorem readValue_complete {v : Value} {levels : Nat} (enough : v.nesting < levels) {t : List Char}
    (text : AfterBlanks ValueText t v) {rest : List Char} (ends : Stops continuesNumber rest) :
    (readValue levels (t ++ rest)).Gets v rest := by
  induction v using Value.byParts generalizing levels t rest with
  | step v ih =>
    obtain ⟨before, text⟩ := text
    rename_i a t
    refine readValue_gets (t := t ++ rest) ?_ (readBare_complete text ends enough ?_ _)
    · rw [List.append_assoc, skipBlanks_append before, (text.startsPart.append rest).skipBlanks]
    · exact fun w hw enough t text rest ends _ => ih w hw enough text ends

theorem read_of_gets {text : String} {v : Value} {rest : List Char}
    (gets : (readValue nestingLimit text.toList).Gets v rest) :
    read text = (v, if skipBlanks rest = [] then none else some .malformed) := by
  obtain ⟨rfl, left⟩ := gets
  unfold read
  split <;> rename_i found
  · rw [found] at left
    cases left
  · rw [found] at left
    cases left
    rw [found]

theorem DocumentText.gets {t : List Char} {v : Value} (text : DocumentText t v) :
    ∃ b, Blanks b ∧ ∀ levels, v.nesting < levels → (readValue levels t).Gets v b := by
  obtain ⟨text, after⟩ := text
  have ends := after.stops_continuesNumber (stops_nil (p := continuesNumber))
  rw [List.append_nil] at ends
  exact ⟨_, after, fun _ enough => readValue_complete enough text ends⟩

/-- What a text spells is what is read from it. -/
theorem DocumentText.read {text : String} {v : Value} (spelled : DocumentText text.toList v)
    (enough : v.nesting < nestingLimit) : read text = (v, none) := by
  obtain ⟨b, blank, gets⟩ := spelled.gets
  have none : skipBlanks b = [] := by
    rw [← List.append_nil b, skipBlanks_append blank]
    rfl
  rw [read_of_gets (gets _ enough), if_pos none]

/-- No text spells two values, however deep they are. -/
theorem DocumentText.unique {t : List Char} {v w : Value} (first : DocumentText t v)
    (second : DocumentText t w) : v = w := by
  obtain ⟨_, -, gets⟩ := first.gets
  obtain ⟨_, -, gets'⟩ := second.gets
  have value := (gets (max v.nesting w.nesting + 1) (by omega)).1
  have value' := (gets' (max v.nesting w.nesting + 1) (by omega)).1
  exact value.symm.trans value'

end TreeQuery.Json
