import TreeQuery.Proofs.Path.Completeness

namespace TreeQuery.Path

open TreeQuery.Text

/-- Digits for a number of more than 64 bits, with a closing bracket behind them. -/
inductive OutOfRange (digits : List Char) : List Char → Prop where
  | intro {a more : List Char} (run : RunOf Char.isDigit digits)
    (large : 0x10000000000000000 ≤ Nat.ofDigitChars 10 digits 0) (spaces : Spaces a) :
    OutOfRange digits (digits ++ (a ++ ']' :: more))

/-- What broke off the reading of `s` is somewhere in `s`, as far as its place is kept. -/
def Breakage.In (s : List Char) : Breakage → Prop
  | positionOutOfRange digits rest => OutOfRange digits rest ∧ ∃ front, s = front ++ rest
  | unknownAxis _ | missingNodeTest _ => True

theorem Breakage.In.prepend {cause : Breakage} {s : List Char} (h : cause.In s)
    (front : List Char) : cause.In (front ++ s) := by
  cases cause with
  | positionOutOfRange digits rest =>
    obtain ⟨large, before, rfl⟩ := h
    exact ⟨large, front ++ before, (List.append_assoc ..).symm⟩
  | unknownAxis => trivial
  | missingNodeTest => trivial

/-- Reading breaks off only for what is there. -/
def NestedReader.Blames {bound : Nat} (nested : NestedReader bound) : Prop :=
  ∀ s h cause, nested s h = .broken cause → cause.In s

variable {bound : Nat} {nested : NestedReader bound} {s : List Char} {cause : Breakage}

theorem several_blames {α : Type} {one : Reader bound α} {Item : List Char → α → Prop}
    (sound : ∀ s h a rest, (one s h).Takes a rest → ∃ t, Item t a ∧ s = t ++ rest)
    (blames : ∀ s h cause, one s h = .broken cause → cause.In s) (s : List Char)
    (h : s.length ≤ bound) (broken : several one s h = .error cause) : cause.In s := by
  induction hn : s.length using Nat.strongRecOn generalizing s with
  | ind n ih =>
    rw [several] at broken
    split at broken
    · cases broken
    · rename_i first
      cases broken
      exact blames s h _ first
    · rename_i a rest shorter first
      obtain ⟨t, -, hs⟩ := sound s h a rest ⟨shorter, first⟩
      split at broken
      · rename_i later
        cases broken
        rw [hs]
        exact (ih rest.length (hn ▸ shorter) rest _ later rfl).prepend t
      · cases broken

theorem readAxis_blames (broken : readAxis s = .broken cause) : cause.In s := by
  unfold readAxis at broken
  split at broken
  · cases broken
  · cases broken
  · cases broken
  · split at broken
    · split at broken
      · cases broken
      · cases broken
        trivial
    · cases broken
    · cases broken

theorem readBody_blames (blames : nested.Blames) (h : s.length < bound)
    (broken : readBody nested s h = .broken cause) : cause.In s := by
  unfold readBody at broken
  split at broken
  · unfold Reading.ofOption at broken
    split at broken <;> cases broken
  · unfold Reading.ofOption at broken
    split at broken <;> cases broken
  · split at broken
    · rename_i digits rest number
      dsimp only at broken
      split at broken
      · cases broken
      · rename_i large
        cases broken
        obtain ⟨hs, run, closed⟩ := takePosition_eq_some_iff.mp number
        obtain ⟨a, spaces, hrest⟩ := exists_spaces rest
        obtain ⟨more, hmore⟩ := List.head?_eq_some_iff.mp closed
        refine ⟨?_, [], rfl⟩
        rw [hs, hrest, hmore]
        exact .intro run (Nat.le_of_not_lt large) spaces
    · split at broken
      · cases broken
      · cases broken
      · rename_i inner
        cases broken
        exact blames _ h _ inner

theorem readPredicate_blames (blames : nested.Blames) (s : List Char) (h : s.length ≤ bound)
    (cause : Breakage) (broken : readPredicate nested s h = .broken cause) : cause.In s := by
  unfold readPredicate at broken
  split at broken
  · rename_i inner _
    dsimp only at broken
    split at broken
    · split at broken <;> cases broken
    · cases broken
    · rename_i body
      cases broken
      obtain ⟨a, -, hs⟩ := exists_spaces inner
      rw [hs, ← List.cons_append]
      exact (readBody_blames blames _ body).prepend _
  · cases broken

theorem finishStep_blames (sound : nested.Sound) (blames : nested.Blames) {axis : Axis}
    {test : NodeTest} {h : s.length ≤ bound}
    (broken : finishStep nested axis test s h = .error cause) : cause.In s := by
  unfold finishStep at broken
  cases found : several (readPredicate nested) s h with
  | ok more =>
    rw [found] at broken
    cases broken
  | error reason =>
    rw [found] at broken
    cases broken
    exact several_blames (readPredicate_sound sound) (readPredicate_blames blames) s h found

theorem readStep_blames (sound : nested.Sound) (blames : nested.Blames) (s : List Char)
    (h : s.length ≤ bound) (cause : Breakage) (broken : readStep nested s h = .broken cause) :
    cause.In s := by
  unfold readStep at broken
  split at broken
  · rename_i moved
    cases broken
    exact readAxis_blames moved
  · rename_i axis behind shorter moved
    obtain ⟨a, -, hs⟩ := readAxis_sound ⟨shorter, moved⟩
    rw [hs]
    split at broken
    · rename_i test more hasTest
      obtain ⟨t, -, hbehind⟩ := takeTest_sound hasTest
      dsimp only at broken
      split at broken
      · rename_i finished
        cases broken
        rw [hbehind]
        exact ((finishStep_blames sound blames finished).prepend t).prepend a
      · cases broken
    · split at broken
      · split at broken
        · rename_i finished
          cases broken
          exact (finishStep_blames sound blames finished).prepend a
        · cases broken
      · cases broken
        trivial
  · split at broken
    · rename_i test more hasTest
      obtain ⟨t, -, hs⟩ := takeTest_sound hasTest
      dsimp only at broken
      split at broken
      · rename_i finished
        cases broken
        rw [hs]
        exact (finishStep_blames sound blames finished).prepend t
      · cases broken
    · cases broken

theorem readNextStep_blames (sound : nested.Sound) (blames : nested.Blames) (s : List Char)
    (h : s.length ≤ bound) (cause : Breakage) (broken : readNextStep nested s h = .broken cause) :
    cause.In s := by
  unfold readNextStep at broken
  split at broken
  · split at broken
    · cases broken
    · cases broken
    · rename_i step
      cases broken
      exact (readStep_blames sound blames _ _ _ step).prepend ['/']
  · cases broken

theorem readSteps_blames (sound : nested.Sound) (blames : nested.Blames) (h : s.length ≤ bound)
    (broken : readSteps nested s h = .broken cause) : cause.In s := by
  unfold readSteps at broken
  split at broken
  · cases broken
  · rename_i first
    cases broken
    exact readStep_blames sound blames _ _ _ first
  · rename_i step rest shorter first
    obtain ⟨t, -, hs⟩ := readStep_sound sound _ _ _ _ ⟨shorter, first⟩
    split at broken
    · rename_i later
      cases broken
      rw [hs]
      exact (several_blames (readNextStep_sound sound) (readNextStep_blames sound blames) _ _
        later).prepend t
    · cases broken

theorem readPath_blames (sound : nested.Sound) (blames : nested.Blames) (h : s.length ≤ bound)
    (broken : readPath nested s h = .broken cause) : cause.In s := by
  unfold readPath at broken
  split at broken
  · split at broken
    · cases broken
    · cases broken
    · rename_i steps
      cases broken
      exact (readSteps_blames sound blames _ steps).prepend ['/']
  · split at broken
    · cases broken
    · cases broken
    · rename_i steps
      cases broken
      exact readSteps_blames sound blames h steps

theorem readNextPath_blames (sound : nested.Sound) (blames : nested.Blames) (s : List Char)
    (h : s.length ≤ bound) (cause : Breakage) (broken : readNextPath nested s h = .broken cause) :
    cause.In s := by
  unfold readNextPath at broken
  dsimp only at broken
  split at broken
  · rename_i behind bar
    split at broken
    · cases broken
    · cases broken
    · rename_i path
      cases broken
      obtain ⟨a, -, hs⟩ := exists_spaces s
      obtain ⟨b, -, hbehind⟩ := exists_spaces behind
      have inside := readPath_blames sound blames _ path
      rw [hs, bar]
      rw [hbehind]
      exact (((inside.prepend b).prepend ['|']).prepend a)
  · cases broken

theorem readBranches_blames (sound : nested.Sound) (blames : nested.Blames) (h : s.length ≤ bound)
    (broken : readBranches nested s h = .broken cause) : cause.In s := by
  unfold readBranches at broken
  split at broken
  · cases broken
  · rename_i first
    cases broken
    exact readPath_blames sound blames h first
  · rename_i path rest shorter first
    obtain ⟨t, -, hs⟩ := readPath_sound sound ⟨shorter, first⟩
    split at broken
    · rename_i later
      cases broken
      rw [hs]
      exact (several_blames (readNextPath_sound sound) (readNextPath_blames sound blames) _ _
        later).prepend t
    · cases broken

theorem readExpr_blames (s : List Char) {cause : Breakage} (broken : readExpr s = .broken cause) :
    cause.In s := by
  induction hn : s.length using Nat.strongRecOn generalizing s cause with
  | ind n ih =>
    rw [readExpr] at broken
    refine readBranches_blames (fun t _ _ _ inner => readExpr_sound t inner) ?_ _ broken
    intro t shorter inner found
    exact ih t.length (hn ▸ shorter) t found rfl

/-- The text behind a slash in front, or all of it where there is none. -/
def unmarked : List Char → List Char
  | '/' :: s => s
  | s => s

theorem exists_eq_append_unmarked (s : List Char) : ∃ front, s = front ++ unmarked s := by
  unfold unmarked
  split
  · exact ⟨['/'], rfl⟩
  · exact ⟨[], rfl⟩

theorem AxisAhead.opens (h : AxisAhead s) : Opens s := by
  cases h with
  | slash rest => exact ⟨'/', rest, rfl, by simp⟩
  | dot rest => exact ⟨'.', rest, rfl, by decide⟩
  | full run rest =>
    obtain ⟨c, u, rfl⟩ := List.exists_cons_of_ne_nil run.1
    exact ⟨c, _, rfl, .inl (isAxisChar_isNameChar (run.2 c (by simp)))⟩

theorem takeTest_eq_none_of_not_opens (h : ¬ Opens s) : takeTest s = none := by
  apply takeTest_eq_none
  · intro star
    obtain ⟨rest, rfl⟩ := List.head?_eq_some_iff.mp star
    exact h ⟨'*', rest, rfl, by simp⟩
  · intro c first name
    obtain ⟨rest, rfl⟩ := List.head?_eq_some_iff.mp (Option.mem_def.mp first)
    exact h ⟨c, rest, rfl, .inl name⟩

/-- A text that opens as expressions do starts with an axis or a node test. -/
theorem Opens.axisAhead_or_test (h : Opens s) : AxisAhead s ∨ takeTest s ≠ none := by
  obtain ⟨c, rest, rfl, name | rfl | rfl⟩ := h
  · right
    by_cases star : c = '*'
    · simp [star, takeTest]
    · simp [takeTest, star, takeRun_eq_none_iff, name]
  · exact .inl (.slash rest)
  · exact .inr (by simp [takeTest])

/-- A reader misses the first step of a path and nothing else. -/
def MissesFirst {α : Type} (r : Reading α s) (start : List Char) : Prop :=
  ∀ stop sought, r = .absent stop sought ↔ ¬ Opens start ∧ stop = start ∧ sought = .step

variable (nested)

theorem readStep_missesFirst (s : List Char) (h : s.length ≤ bound) :
    MissesFirst (readStep nested s h) s := by
  intro stop sought
  constructor
  · intro absent
    unfold readStep at absent
    split at absent
    · cases absent
    · split at absent
      · dsimp only at absent
        split at absent <;> cases absent
      · split at absent
        · split at absent <;> cases absent
        · cases absent
    · rename_i far missing unmoved
      have noAxis := readAxis_absent_iff.mp ⟨far, missing, unmoved⟩
      split at absent
      · dsimp only at absent
        split at absent <;> cases absent
      · rename_i untested
        cases absent
        exact ⟨fun opens => opens.axisAhead_or_test.elim noAxis (· untested), rfl, rfl⟩
  · intro closed
    obtain ⟨shut, rfl, rfl⟩ := closed
    obtain ⟨far, missing, unmoved⟩ := readAxis_absent_iff.mpr (mt AxisAhead.opens shut)
    have untested := takeTest_eq_none_of_not_opens shut
    unfold readStep
    split
    · simp_all
    · simp_all
    · split
      · simp_all
      · rfl

theorem readSteps_missesFirst (s : List Char) (h : s.length ≤ bound) :
    MissesFirst (readSteps nested s h) s := by
  intro stop sought
  rw [← readStep_missesFirst nested s h stop sought]
  unfold readSteps
  split
  · rename_i first
    simp [first]
  · rename_i first
    simp [first]
  · rename_i first
    rw [first]
    split <;> simp

theorem readPath_missesFirst (s : List Char) (h : s.length ≤ bound) :
    MissesFirst (readPath nested s h) (unmarked s) := by
  intro stop sought
  unfold readPath
  split
  · rename_i rest within
    rw [unmarked, ← readSteps_missesFirst nested rest (Nat.le_of_lt within) stop sought]
    split <;> simp_all
  · rename_i noSlash
    have whole : unmarked s = s := by
      unfold unmarked
      split
      · exact absurd HEq.rfl (noSlash _ h rfl)
      · rfl
    rw [whole, ← readSteps_missesFirst nested s h stop sought]
    split <;> simp_all

theorem readBranches_missesFirst (s : List Char) (h : s.length ≤ bound) :
    MissesFirst (readBranches nested s h) (unmarked s) := by
  intro stop sought
  rw [← readPath_missesFirst nested s h stop sought]
  unfold readBranches
  split
  · rename_i first
    simp [first]
  · rename_i first
    simp [first]
  · rename_i first
    rw [first]
    split <;> simp

theorem readExpr_missesFirst (s : List Char) : MissesFirst (readExpr s) (unmarked s) := by
  intro stop sought
  rw [readExpr]
  exact readBranches_missesFirst _ s _ stop sought

end TreeQuery.Path
