import TreeQuery.Proofs.Json.Grammar
import TreeQuery.Proofs.Path.Token

namespace TreeQuery.Json

open TreeQuery.Path (RunOf Repeated Stops stops_nil stops_cons stops_dropWhile
  takeWhile_append_stops)

theorem Blanks.append {a b : List Char} (first : Blanks a) (second : Blanks b) : Blanks (a ++ b) :=
  List.forall_mem_append.mpr ⟨first, second⟩

theorem skipBlanks_append {a : List Char} (blank : Blanks a) (s : List Char) :
    skipBlanks (a ++ s) = skipBlanks s := List.dropWhile_append_of_pos blank

theorem skipBlanks_cons {c : Char} (h : ¬ isBlank c) (s : List Char) :
    skipBlanks (c :: s) = c :: s := List.dropWhile_cons_of_neg h

theorem exists_blanks (s : List Char) : ∃ a, Blanks a ∧ s = a ++ skipBlanks s :=
  ⟨s.takeWhile isBlank, fun _ => List.mem_takeWhile_imp, List.takeWhile_append_dropWhile.symm⟩

theorem takeWord_eq_ok_iff {word s rest : List Char} :
    takeWord word s = .ok rest ↔ s = word ++ rest := by
  induction word generalizing s with
  | nil => simp [takeWord]
  | cons e word ih =>
    cases s with
    | nil => simp [takeWord]
    | cons c s =>
      rw [takeWord, List.cons_append, List.cons.injEq, ← ih]
      split <;> simp [*]

theorem length_le_byteLength (text : List Char) : text.length ≤ Text.byteLength text := by
  induction text with
  | nil => exact Nat.le_refl 0
  | cons c text ih =>
    rw [Text.byteLength_cons, List.length_cons]
    have := c.utf8Size_pos
    omega

theorem takeUnit_eq_ok_iff {s rest : List Char} {n : Nat} :
    takeUnit s = .ok (n, rest) ↔ ∃ t, s = t ++ rest ∧ UnitText t n := by
  constructor
  · intro h
    unfold takeUnit at h
    split at h
    · cases h
    · split at h
      · split at h
        · rename_i first second third fourth
          cases h
          exact ⟨_, rfl, .intro first second third fourth⟩
        · cases h
      · cases h
  · rintro ⟨t, rfl, text⟩
    obtain ⟨first, second, third, fourth⟩ := text
    rename_i a b c d k l m n
    have enough : ¬ Text.byteLength (([a, b, c, d] ++ rest).take 4) < 4 :=
      Nat.not_lt.mpr (length_le_byteLength [a, b, c, d])
    unfold takeUnit
    rw [if_neg enough]
    simp only [List.cons_append, first, second, third, fourth, List.nil_append]

theorem takeLowSurrogate_eq_ok_iff {high : Nat} {s rest : List Char} {c : Char} :
    takeLowSurrogate high s = .ok (c, rest) ↔
      ∃ u low, s = '\\' :: 'u' :: (u ++ rest) ∧ UnitText u low ∧ (0xDC00 ≤ low ∧ low ≤ 0xDFFF) ∧
        c = Char.ofNat (0x10000 + (high - 0xD800) * 0x400 + (low - 0xDC00)) := by
  constructor
  · intro h
    unfold takeLowSurrogate at h
    split at h
    · cases h
    · cases h
    · split at h
      · cases h
      · rename_i unit
        obtain ⟨u, rfl, text⟩ := takeUnit_eq_ok_iff.mp unit
        split at h
        · rename_i isLow
          simp only [Except.ok.injEq, Prod.mk.injEq] at h
          obtain ⟨rfl, rfl⟩ := h
          exact ⟨u, _, rfl, text, isLow, rfl⟩
        · cases h
    · cases h
  · rintro ⟨u, low, rfl, text, isLow, char⟩
    rw [char, takeLowSurrogate, takeUnit_eq_ok_iff.mpr ⟨u, rfl, text⟩]
    dsimp only
    rw [if_pos isLow]

theorem takeEscape_eq_ok_iff {s rest : List Char} {c : Char} :
    takeEscape s = .ok (c, rest) ↔ ∃ t, s = t ++ rest ∧ EscapeText t c := by
  constructor
  · intro h
    unfold takeEscape at h
    split at h
    case h_10 =>
      split at h
      · cases h
      · rename_i unit
        obtain ⟨t, rfl, first⟩ := takeUnit_eq_ok_iff.mp unit
        split at h
        · cases h
        · rename_i notLow
          split at h
          · rename_i isHigh
            obtain ⟨u, low, rfl, second, isLow, char⟩ := takeLowSurrogate_eq_ok_iff.mp h
            rw [char]
            exact ⟨_, by simp, .pair first isHigh second isLow⟩
          · simp only [Except.ok.injEq, Prod.mk.injEq] at h
            obtain ⟨rfl, rfl⟩ := h
            exact ⟨_, rfl, .unit first (by omega)⟩
    case h_1 | h_11 => cases h
    -- the eight escapes of one letter
    all_goals
      cases h
      exact ⟨[_], rfl, by constructor⟩
  · rintro ⟨t, rfl, text⟩
    cases text with
    | unit text alone =>
      rw [List.cons_append, takeEscape, takeUnit_eq_ok_iff.mpr ⟨_, rfl, text⟩]
      dsimp only
      rw [if_neg (by omega), if_neg (by omega)]
    | pair first isHigh second isLow =>
      rw [List.cons_append, List.append_assoc, takeEscape,
        takeUnit_eq_ok_iff.mpr ⟨_, rfl, first⟩]
      dsimp only
      rw [if_neg (by omega), if_pos isHigh]
      exact takeLowSurrogate_eq_ok_iff.mpr ⟨_, _, rfl, second, isLow, rfl⟩
    | _ => rfl

section

variable (done rest : List Char)

theorem takeText_quote : takeText done ('"' :: rest) = .ok (String.ofList done.reverse, rest) := by
  rw [takeText]

theorem takeText_escape {s : List Char} {c : Char} (h : takeEscape s = .ok (c, rest)) :
    takeText done ('\\' :: s) = takeText (c :: done) rest := by
  rw [takeText]
  split
  · rename_i fault other
    rw [h] at other
    cases other
  · rename_i c' rest' same
    rw [h] at same
    cases same
    rfl

theorem takeText_plain {c : Char} (quote : c ≠ '"') (backslash : c ≠ '\\') (h : ¬ c.toNat < 0x20) :
    takeText done (c :: rest) = takeText (c :: done) rest := by
  rw [takeText]
  · rw [if_neg h]
  · exact quote
  · exact backslash

theorem takeText_char {t : List Char} {c : Char} (text : CharText t c) :
    takeText done (t ++ rest) = takeText (c :: done) rest := by
  cases text with
  | plain quote backslash control => exact takeText_plain done rest quote backslash control
  | escape text => exact takeText_escape done rest (takeEscape_eq_ok_iff.mpr ⟨_, rfl, text⟩)

end

/-- What is taken of a text are characters up to a quote. -/
theorem takeText_eq_ok_iff {done s rest : List Char} {text : String} :
    takeText done s = .ok (text, rest) ↔
      ∃ t cs, s = t ++ '"' :: rest ∧ Repeated CharText t cs ∧
        text = String.ofList (done.reverse ++ cs) := by
  constructor
  · intro h
    fun_induction takeText done s with
    | case1 => cases h
    | case2 done tail =>
      cases h
      exact ⟨[], [], rfl, .nil, by rw [List.append_nil]⟩
    | case3 => cases h
    | case4 done tail c rest' escape this ih =>
      obtain ⟨t, cs, rfl, chars, rfl⟩ := ih h
      obtain ⟨e, rfl, text⟩ := takeEscape_eq_ok_iff.mp escape
      exact ⟨'\\' :: e ++ t, c :: cs, by simp, .cons (.escape text) chars, by simp⟩
    | case5 => cases h
    | case6 done c tail quote backslash control ih =>
      obtain ⟨t, cs, rfl, chars, rfl⟩ := ih h
      exact ⟨[c] ++ t, c :: cs, rfl, .cons (.plain quote backslash control) chars, by simp⟩
  · rintro ⟨t, cs, rfl, chars, rfl⟩
    induction chars generalizing done with
    | nil => rw [List.nil_append, takeText_quote, List.append_nil]
    | cons first more ih =>
      rw [List.append_assoc, takeText_char _ _ first, ih, List.reverse_cons, List.append_assoc,
        List.singleton_append]

/-- Behind a quote, a text in quotes is taken to its end. -/
theorem takeText_nil_eq_ok_iff {s rest : List Char} {text : String} :
    takeText [] s = .ok (text, rest) ↔ ∃ q, '"' :: s = q ++ rest ∧ QuotedText q text := by
  rw [takeText_eq_ok_iff]
  constructor
  · rintro ⟨t, cs, rfl, chars, rfl⟩
    exact ⟨_, by simp, .intro chars⟩
  · rintro ⟨q, whole, chars⟩
    obtain ⟨chars⟩ := chars
    rename_i t cs
    rw [List.cons_append, List.append_assoc, List.singleton_append] at whole
    exact ⟨t, cs, (List.cons.inj whole).2, chars, rfl⟩

/-- Whether a number goes on with this character after its digits. -/
def continuesNumber (c : Char) : Bool := c.isDigit || c = '.' || c = 'e' || c = 'E'

theorem takeDigits_sound {s digits : List Char} (taken : s.takeWhile Char.isDigit = digits)
    (nonempty : digits ≠ []) : RunOf Char.isDigit digits ∧ s = digits ++ s.dropWhile Char.isDigit := by
  subst taken
  exact ⟨⟨nonempty, fun _ => List.mem_takeWhile_imp⟩, List.takeWhile_append_dropWhile.symm⟩

theorem takeWhole_sound {s digits rest : List Char} (h : takeWhole s = .ok (digits, rest)) :
    s = digits ++ rest ∧ WholeText digits := by
  have digit : ∀ c ∈ ['0'], c.isDigit := List.forall_mem_singleton.mpr rfl
  have zero : WholeText ['0'] := ⟨⟨List.cons_ne_nil _ _, digit⟩, fun _ => rfl⟩
  unfold takeWhole at h
  split at h
  · split at h
    · split at h
      · cases h
      · cases h
        exact ⟨rfl, zero⟩
    · cases h
      exact ⟨rfl, zero⟩
  · rename_i noZero
    split at h
    · cases h
    · rename_i nonempty
      cases h
      obtain ⟨run, whole⟩ := takeDigits_sound rfl nonempty
      refine ⟨whole, run, fun first => ?_⟩
      obtain ⟨t, digits⟩ := List.head?_eq_some_iff.mp first
      rw [digits] at whole
      exact absurd whole (noZero _)

theorem takeFraction_sound {s rest : List Char} {fraction : Option (List Char)}
    (h : takeFraction s = .ok (fraction, rest)) :
    ∃ t, s = t ++ rest ∧ FractionText t fraction := by
  unfold takeFraction at h
  split at h
  · split at h
    · cases h
    · rename_i nonempty
      cases h
      obtain ⟨run, whole⟩ := takeDigits_sound rfl nonempty
      exact ⟨_, congrArg _ whole, .some run⟩
  · cases h
    exact ⟨[], rfl, .none⟩

theorem takeSign_sound (s : List Char) : ∃ t, s = t ++ (takeSign s).2 ∧ SignText t (takeSign s).1 := by
  unfold takeSign
  split
  · exact ⟨['+'], rfl, .plus⟩
  · exact ⟨['-'], rfl, .minus⟩
  · exact ⟨[], rfl, .none⟩

theorem takeExponent_sound {s rest : List Char} {exponent : Option (Bool × List Char)}
    (h : takeExponent s = .ok (exponent, rest)) :
    ∃ t, s = t ++ rest ∧ ExponentText t exponent := by
  unfold takeExponent at h
  split at h
  · cases h
    exact ⟨[], rfl, .none⟩
  · rename_i e s
    split at h
    · rename_i letter
      obtain ⟨sign, signed, text⟩ := takeSign_sound s
      dsimp only at h
      split at h
      · cases h
      · rename_i nonempty
        cases h
        obtain ⟨run, whole⟩ := takeDigits_sound rfl nonempty
        refine ⟨_, ?_, .some letter text run⟩
        rw [List.cons_append, List.append_assoc, ← whole, ← signed]
    · cases h
      exact ⟨[], rfl, .none⟩

theorem takeUnsigned_sound {negative : Bool} {s rest : List Char} {n : Numeral}
    (h : takeUnsigned negative s = .ok (n, rest)) :
    ∃ t, s = t ++ rest ∧ UnsignedText negative t n := by
  unfold takeUnsigned at h
  cases whole : takeWhole s with
  | error => simp [whole, bind, Except.bind] at h
  | ok w =>
    cases fraction : takeFraction w.2 with
    | error => simp [whole, fraction, bind, Except.bind] at h
    | ok f =>
      cases exponent : takeExponent f.2 with
      | error => simp [whole, fraction, exponent, bind, Except.bind] at h
      | ok e =>
        simp only [whole, fraction, exponent, bind, Except.bind, pure, Except.pure,
          Except.ok.injEq, Prod.mk.injEq] at h
        obtain ⟨rfl, rfl⟩ := h
        obtain ⟨front, digits⟩ := takeWhole_sound whole
        obtain ⟨t, middle, hasFraction⟩ := takeFraction_sound fraction
        obtain ⟨u, back, hasExponent⟩ := takeExponent_sound exponent
        refine ⟨_, ?_, .intro digits hasFraction hasExponent⟩
        rw [front, middle, back, List.append_assoc, List.append_assoc]

theorem takeNumeral_sound {s rest : List Char} {n : Numeral} (h : takeNumeral s = .ok (n, rest)) :
    ∃ t, s = t ++ rest ∧ NumeralText t n := by
  unfold takeNumeral at h
  split at h
  · obtain ⟨t, rfl, text⟩ := takeUnsigned_sound h
    exact ⟨_, rfl, .negative text⟩
  · obtain ⟨t, whole, text⟩ := takeUnsigned_sound h
    exact ⟨t, whole, .unsigned text⟩

/-- Neither the digits behind the point nor the exponent could go on any part before them. -/
theorem ExponentText.stops_isDigit {u : List Char} {exponent : Option (Bool × List Char)}
    (text : ExponentText u exponent) {rest : List Char} (ends : Stops continuesNumber rest) :
    Stops Char.isDigit (u ++ rest) := by
  cases text with
  | none => exact fun c hc digit => ends c hc (by simp [continuesNumber, digit])
  | some letter => exact stops_cons.mpr (by rcases letter with rfl | rfl <;> decide)

theorem FractionText.stops_isDigit {t : List Char} {fraction : Option (List Char)}
    (text : FractionText t fraction) {rest : List Char} (ends : Stops Char.isDigit rest) :
    Stops Char.isDigit (t ++ rest) := by
  cases text with
  | none => exact ends
  | some => exact stops_cons.mpr (by decide)

theorem takeWhole_complete {digits rest : List Char} (text : WholeText digits)
    (ends : Stops Char.isDigit rest) : takeWhole (digits ++ rest) = .ok (digits, rest) := by
  obtain ⟨⟨nonempty, run⟩, zero⟩ := text
  obtain ⟨taken, left⟩ := takeWhile_append_stops run ends
  cases digits with
  | nil => exact absurd rfl nonempty
  | cons d digits =>
    by_cases h : d = '0'
    · subst h
      cases zero rfl
      cases rest with
      | nil => rfl
      | cons c rest => simp [takeWhole, stops_cons.mp ends]
    · rw [List.cons_append] at taken left ⊢
      simp [takeWhole, h, taken, left]

theorem takeFraction_complete {t rest : List Char} {fraction : Option (List Char)}
    (text : FractionText t fraction) (noPoint : rest.head? ≠ some '.')
    (ends : Stops Char.isDigit rest) : takeFraction (t ++ rest) = .ok (fraction, rest) := by
  cases text with
  | none =>
    unfold takeFraction
    split
    · rename_i point
      exact absurd (by rw [List.nil_append] at point; rw [point]; rfl) noPoint
    · rfl
  | some run =>
    obtain ⟨taken, left⟩ := takeWhile_append_stops run.2 ends
    rw [List.cons_append, takeFraction]
    simp only [taken, left]
    split
    · exact absurd rfl run.1
    · rfl

/-- The digits of an exponent do not look like its sign. -/
theorem takeSign_complete {sign digits rest : List Char} {below : Bool} (text : SignText sign below)
    (run : RunOf Char.isDigit digits) :
    takeSign (sign ++ (digits ++ rest)) = (below, digits ++ rest) := by
  cases text with
  | plus | minus => rfl
  | none =>
    obtain ⟨nonempty, digit⟩ := run
    cases digits with
    | nil => exact absurd rfl nonempty
    | cons d digits =>
      have first := digit d (List.mem_cons_self ..)
      rw [List.nil_append, List.cons_append]
      unfold takeSign
      split
      · rename_i plus
        cases plus
        exact absurd first (by decide)
      · rename_i minus
        cases minus
        exact absurd first (by decide)
      · rfl

theorem takeExponent_complete {u rest : List Char} {exponent : Option (Bool × List Char)}
    (text : ExponentText u exponent) (ends : Stops continuesNumber rest) :
    takeExponent (u ++ rest) = .ok (exponent, rest) := by
  cases text with
  | none =>
    rw [List.nil_append]
    unfold takeExponent
    split
    · rfl
    · have other := stops_cons.mp ends
      rw [if_neg fun letter => other (by rcases letter with rfl | rfl <;> decide)]
  | some letter signed run =>
    obtain ⟨taken, left⟩ :=
      takeWhile_append_stops run.2 (ExponentText.none.stops_isDigit ends)
    rw [List.cons_append, List.append_assoc, takeExponent, if_pos letter,
      takeSign_complete signed run]
    simp only [List.nil_append] at taken left
    simp only [taken, left]
    split
    · exact absurd rfl run.1
    · rfl

theorem takeUnsigned_complete {negative : Bool} {t rest : List Char} {n : Numeral}
    (text : UnsignedText negative t n) (ends : Stops continuesNumber rest) :
    takeUnsigned negative (t ++ rest) = .ok (n, rest) := by
  obtain ⟨digits, hasFraction, hasExponent⟩ := text
  rename_i whole t u fraction exponent
  have behind : (u ++ rest).head? ≠ some '.' := by
    cases hasExponent with
    | none => exact fun point => ends '.' point (by decide)
    | some letter => rcases letter with rfl | rfl <;> simp
  have noDigit := hasExponent.stops_isDigit ends
  have afterWhole := takeWhole_complete digits (hasFraction.stops_isDigit noDigit)
  rw [takeUnsigned, List.append_assoc, List.append_assoc, afterWhole]
  dsimp only [bind, Except.bind]
  rw [takeFraction_complete hasFraction behind noDigit]
  dsimp only
  rw [takeExponent_complete hasExponent ends]
  rfl

theorem UnsignedText.isDigit_head {negative : Bool} {t : List Char} {n : Numeral}
    (text : UnsignedText negative t n) : ∃ c u, t = c :: u ∧ c.isDigit := by
  obtain ⟨⟨⟨nonempty, run⟩, -⟩, -, -⟩ := text
  rename_i whole _ _ _ _
  cases whole with
  | nil => exact absurd rfl nonempty
  | cons c whole => exact ⟨c, _, List.cons_append, run c (List.mem_cons_self ..)⟩

theorem takeNumeral_complete {t rest : List Char} {n : Numeral} (text : NumeralText t n)
    (ends : Stops continuesNumber rest) : takeNumeral (t ++ rest) = .ok (n, rest) := by
  cases text with
  | negative text => exact takeUnsigned_complete text ends
  | unsigned text =>
    obtain ⟨c, u, rfl, digit⟩ := text.isDigit_head
    rw [← takeUnsigned_complete text ends, List.cons_append]
    unfold takeNumeral
    split
    · rename_i minus
      cases minus
      exact absurd digit (by decide)
    · rfl

end TreeQuery.Json
