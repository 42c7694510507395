import Mathlib.Data.List.TakeWhile
import TreeQuery.Proofs.Path.Grammar

namespace TreeQuery.Path

/-- The text does not go on with a character that satisfies `p`. -/
def Stops (p : Char → Bool) (s : List Char) : Prop := ∀ c ∈ s.head?, ¬ p c

variable {p : Char → Bool}

@[simp] theorem stops_nil : Stops p [] := by simp [Stops]

@[simp] theorem stops_cons {c : Char} {s : List Char} : Stops p (c :: s) ↔ ¬ p c := by simp [Stops]

theorem stops_dropWhile (s : List Char) : Stops p (s.dropWhile p) := by
  intro c hc hp
  have := List.head?_dropWhile_not p s
  rw [Option.mem_def.mp hc] at this
  simp [hp] at this

theorem takeWhile_append_stops {run rest : List Char} (hr : ∀ c ∈ run, p c) (hs : Stops p rest) :
    (run ++ rest).takeWhile p = run ∧ (run ++ rest).dropWhile p = rest := by
  rw [List.takeWhile_append_of_pos hr, List.dropWhile_append_of_pos hr]
  cases rest with
  | nil => simp
  | cons c rest => simp [stops_cons.mp hs]

theorem takeRun_eq_some_iff {s run rest : List Char} :
    takeRun p s = some (run, rest) ↔ s = run ++ rest ∧ RunOf p run ∧ Stops p rest := by
  constructor
  · intro h
    unfold takeRun at h
    split at h
    · cases h
    · rename_i nonempty
      simp only [Option.some.injEq, Prod.mk.injEq] at h
      obtain ⟨rfl, rfl⟩ := h
      exact ⟨List.takeWhile_append_dropWhile.symm,
        ⟨nonempty, fun _ => List.mem_takeWhile_imp⟩, stops_dropWhile s⟩
  · intro h
    obtain ⟨rfl, ⟨hne, hall⟩, hs⟩ := h
    obtain ⟨ht, hd⟩ := takeWhile_append_stops hall hs
    unfold takeRun
    rw [ht, hd]
    cases run with
    | nil => exact absurd rfl hne
    | cons c run => rfl

theorem takeRun_eq_none_iff {s : List Char} : takeRun p s = none ↔ Stops p s := by
  unfold takeRun
  cases s with
  | nil => simp
  | cons c s => by_cases hc : p c <;> simp [hc]

theorem skipSpaces_append {a : List Char} (h : Spaces a) (s : List Char) :
    skipSpaces (a ++ s) = skipSpaces s := by
  unfold skipSpaces
  rw [List.dropWhile_append_of_pos h]

theorem skipSpaces_of_stops {s : List Char} (h : Stops isSpace s) : skipSpaces s = s :=
  (takeWhile_append_stops (fun _ hc => absurd hc List.not_mem_nil) h).2

theorem stops_skipSpaces (s : List Char) : Stops isSpace (skipSpaces s) := stops_dropWhile s

theorem exists_spaces (s : List Char) : ∃ a, Spaces a ∧ s = a ++ skipSpaces s :=
  ⟨s.takeWhile isSpace, fun _ => List.mem_takeWhile_imp,
    List.takeWhile_append_dropWhile.symm⟩

theorem isSpace_not_isNameChar {c : Char} (h : isSpace c) : ¬ isNameChar c := by
  simp only [isSpace, Bool.or_eq_true, decide_eq_true_eq] at h
  rcases h with ((rfl | rfl) | rfl) | rfl <;> decide

theorem isDigit_isNameChar {c : Char} (h : c.isDigit) : isNameChar c := by
  simp [isNameChar, Char.isAlphanum, h]

theorem isFunctionStart_isFunctionChar {c : Char} (h : isFunctionStart c) : isFunctionChar c := by
  simp only [isFunctionStart, isFunctionChar, Char.isAlphanum, Bool.or_eq_true,
    decide_eq_true_eq] at h ⊢
  rcases h with h | rfl
  · simp [h]
  · simp

theorem isFunctionChar_isNameChar {c : Char} (h : isFunctionChar c) : isNameChar c := by
  simp only [isFunctionChar, isNameChar, Bool.or_eq_true, decide_eq_true_eq] at h ⊢
  rcases h with h | rfl
  · simp [h]
  · simp

theorem Spaces.stops_isNameChar {a : List Char} (h : Spaces a) {s : List Char}
    (hs : Stops isNameChar s) : Stops isNameChar (a ++ s) := by
  cases a with
  | nil => exact hs
  | cons c a => exact stops_cons.mpr (isSpace_not_isNameChar (h c (by simp)))

/-- No word goes on where a bracket closes, with or without spaces before it. -/
theorem stops_of_closed {s : List Char} (name : ∀ c, p c → isNameChar c)
    (closed : (skipSpaces s).head? = some ']') : Stops p s := by
  obtain ⟨a, spaces, hs⟩ := exists_spaces s
  obtain ⟨rest, hrest⟩ := List.head?_eq_some_iff.mp closed
  have stop : Stops isNameChar s := by
    rw [hs, hrest]
    apply spaces.stops_isNameChar
    simp [isNameChar]
  intro c hc hp
  exact stop c hc (name c hp)

theorem takeUntil_eq_some_iff {quote : Char} {s v rest : List Char} :
    takeUntil quote s = some (v, rest) ↔ quote ∉ v ∧ s = v ++ quote :: rest := by
  constructor
  · intro h
    unfold takeUntil at h
    split at h
    · cases h
    · rename_i c after eq
      simp only [Option.some.injEq, Prod.mk.injEq] at h
      obtain ⟨rfl, rfl⟩ := h
      have stop : Stops (· ≠ quote) (c :: after) := eq ▸ stops_dropWhile s
      obtain rfl : c = quote := by simpa using stop
      refine ⟨fun hm => ?_, ?_⟩
      · simpa using List.mem_takeWhile_imp hm
      · rw [← eq, List.takeWhile_append_dropWhile]
  · intro h
    obtain ⟨hv, rfl⟩ := h
    have hall : ∀ c ∈ v, decide (c ≠ quote) = true := by
      intro c hc
      simp only [ne_eq, decide_not, Bool.not_eq_eq_eq_not, Bool.not_true, decide_eq_false_iff_not]
      rintro rfl
      exact hv hc
    have stop : Stops (· ≠ quote) (quote :: rest) := by simp
    obtain ⟨ht, hd⟩ := takeWhile_append_stops hall stop
    simp only [takeUntil, ht, hd]

theorem takeQuoted_eq_some_iff {s v rest : List Char} :
    takeQuoted s = some (v, rest) ↔ ∃ q, QuotedText q v ∧ s = q ++ rest := by
  constructor
  · intro h
    unfold takeQuoted at h
    split at h
    · obtain ⟨hv, rfl⟩ := takeUntil_eq_some_iff.mp h
      exact ⟨_, .single hv, by simp⟩
    · obtain ⟨hv, rfl⟩ := takeUntil_eq_some_iff.mp h
      exact ⟨_, .double hv, by simp⟩
    · cases h
  · intro h
    obtain ⟨q, hq, rfl⟩ := h
    cases hq with
    | single hv => exact takeUntil_eq_some_iff.mpr ⟨hv, by simp⟩
    | double hv => exact takeUntil_eq_some_iff.mpr ⟨hv, by simp⟩

theorem QuotedText.stops_isSpace {q v : List Char} (h : QuotedText q v) (rest : List Char) :
    Stops isSpace (q ++ rest) := by
  cases h <;> simp [isSpace]

theorem takeAttribute_eq_some_iff {s rest : List Char} {pred : Predicate} :
    takeAttribute s = some (pred, rest) ↔ ∃ t, AttributeText t pred ∧ s = t ++ rest := by
  constructor
  · intro h
    unfold takeAttribute at h
    split at h
    · split at h
      · cases h
      · rename_i name s₁ run
        obtain ⟨rfl, hname, -⟩ := takeRun_eq_some_iff.mp run
        split at h
        · rename_i s₂ eq
          obtain ⟨⟨v, r⟩, quoted, same⟩ := Option.map_eq_some_iff.mp h
          obtain ⟨rfl, rfl⟩ := Prod.mk.inj same
          obtain ⟨q, hq, hs⟩ := takeQuoted_eq_some_iff.mp quoted
          obtain ⟨a, ha, hs₁⟩ := exists_spaces s₁
          obtain ⟨b, hb, hs₂⟩ := exists_spaces s₂
          refine ⟨_, .intro hname ha hb hq, ?_⟩
          rw [eq] at hs₁
          rw [hs] at hs₂
          rw [hs₁, hs₂]
          simp
        · cases h
    · cases h
  · intro h
    obtain ⟨t, ht, rfl⟩ := h
    obtain ⟨hname, ha, hb, hq⟩ := ht
    rename_i n a b q v
    have run : takeRun isNameChar (n ++ (a ++ '=' :: (b ++ (q ++ rest)))) =
        some (n, a ++ '=' :: (b ++ (q ++ rest))) :=
      takeRun_eq_some_iff.mpr ⟨rfl, hname, ha.stops_isNameChar (by simp [isNameChar])⟩
    have equals : skipSpaces (a ++ '=' :: (b ++ (q ++ rest))) = '=' :: (b ++ (q ++ rest)) := by
      rw [skipSpaces_append ha, skipSpaces_of_stops (by simp [isSpace])]
    have value : takeQuoted (skipSpaces (b ++ (q ++ rest))) = some (v, rest) := by
      rw [skipSpaces_append hb, skipSpaces_of_stops (hq.stops_isSpace rest)]
      exact takeQuoted_eq_some_iff.mpr ⟨q, hq, rfl⟩
    simp [takeAttribute, run, equals, value]

theorem takeFunction_eq_some_iff {s rest : List Char} {pred : Predicate} :
    takeFunction s = some (pred, rest) ↔
      ∃ t, FunctionText t pred ∧ s = t ++ rest ∧ Stops isFunctionChar rest := by
  constructor
  · intro h
    unfold takeFunction at h
    split at h
    · rename_i c s
      split at h
      · rename_i hc
        simp only [Option.some.injEq, Prod.mk.injEq] at h
        obtain ⟨rfl, rfl⟩ := h
        refine ⟨_, .intro hc (fun _ => List.mem_takeWhile_imp), ?_,
          stops_dropWhile s⟩
        simp
      · cases h
    · cases h
  · intro h
    obtain ⟨t, ht, rfl, hr⟩ := h
    obtain ⟨hc, hd⟩ := ht
    obtain ⟨more, less⟩ := takeWhile_append_stops hd hr
    simp [takeFunction, hc, more, less]

theorem takePosition_eq_some_iff {s digits rest : List Char} :
    takePosition s = some (digits, rest) ↔
      s = digits ++ rest ∧ RunOf Char.isDigit digits ∧ (skipSpaces rest).head? = some ']' := by
  constructor
  · intro h
    unfold takePosition at h
    split at h
    · cases h
    · rename_i run
      obtain ⟨rfl, hrun, -⟩ := takeRun_eq_some_iff.mp run
      split at h
      · rename_i eq
        simp only [Option.some.injEq, Prod.mk.injEq] at h
        obtain ⟨rfl, rfl⟩ := h
        exact ⟨rfl, hrun, by simp [eq]⟩
      · cases h
  · intro h
    obtain ⟨rfl, hrun, hclose⟩ := h
    have stop : Stops Char.isDigit rest := stops_of_closed (fun _ => isDigit_isNameChar) hclose
    obtain ⟨after, eq⟩ := List.head?_eq_some_iff.mp hclose
    simp [takePosition, takeRun_eq_some_iff.mpr ⟨rfl, hrun, stop⟩, eq]

theorem takeTest_sound {s rest : List Char} {test : NodeTest} (h : takeTest s = some (test, rest)) :
    ∃ t, TestText t test ∧ s = t ++ rest := by
  unfold takeTest at h
  split at h
  · simp only [Option.some.injEq, Prod.mk.injEq] at h
    obtain ⟨rfl, rfl⟩ := h
    exact ⟨_, .any, rfl⟩
  · obtain ⟨⟨name, r⟩, run, same⟩ := Option.map_eq_some_iff.mp h
    obtain ⟨rfl, rfl⟩ := Prod.mk.inj same
    obtain ⟨rfl, hname, -⟩ := takeRun_eq_some_iff.mp run
    exact ⟨_, .named hname, rfl⟩

theorem takeTest_complete {t rest : List Char} {test : NodeTest} (h : TestText t test)
    (hr : Stops isNameChar rest) : takeTest (t ++ rest) = some (test, rest) := by
  cases h with
  | any => rfl
  | named hname =>
    unfold takeTest
    split
    · rename_i eq
      obtain ⟨c, t, rfl⟩ := List.exists_cons_of_ne_nil hname.1
      have star := hname.2 c (by simp)
      simp only [List.cons_append, List.cons.injEq] at eq
      rw [eq.1] at star
      exact absurd star (by decide)
    · rw [takeRun_eq_some_iff.mpr ⟨rfl, hname, hr⟩]
      rfl

theorem takeTest_eq_none {s : List Char} (star : s.head? ≠ some '*') (hs : Stops isNameChar s) :
    takeTest s = none := by
  unfold takeTest
  split
  · simp at star
  · rw [takeRun_eq_none_iff.mpr hs]
    rfl

end TreeQuery.Path
