import TreeQuery.Proofs.Path.Reading

namespace TreeQuery.Path

/-- A sound reader takes only what the grammar gives the text it takes. -/
def NestedReader.Sound {bound : Nat} (nested : NestedReader bound) : Prop :=
  ∀ s h e rest, (nested s h).Takes e rest → ∃ t, ExprText t e ∧ s = t ++ rest

variable {bound : Nat} {nested : NestedReader bound} {s rest : List Char}

theorem AxisAhead.append (h : AxisAhead s) (rest : List Char) : AxisAhead (s ++ rest) := by
  cases h with
  | slash => exact .slash _
  | dot => exact .dot _
  | full run =>
    rw [List.append_assoc]
    exact .full run _

theorem AxisText.of_append {a t : List Char} {axis : Axis} (h : AxisText a (t ++ rest) axis) :
    AxisText a t axis := by
  cases h with
  | slash => exact .slash
  | twoDots => exact .twoDots
  | oneDot single =>
    refine .oneDot fun hd => single ?_
    obtain ⟨u, rfl⟩ := List.head?_eq_some_iff.mp hd
    rfl
  | full => exact .full _

/-- The bracket behind the body tells digits that are a position from those that start a name. -/
theorem readBody_sound (sound : nested.Sound) {h : s.length < bound} {p : Predicate}
    (taken : (readBody nested s h).Takes p rest) (closed : (skipSpaces rest).head? = some ']') :
    ∃ t, BodyText t p ∧ s = t ++ rest := by
  unfold readBody at taken
  split at taken
  · obtain ⟨t, ht, hs⟩ := takeAttribute_eq_some_iff.mp (Reading.takes_ofOption.mp taken)
    exact ⟨t, .ofAttribute ht, hs⟩
  · obtain ⟨t, ht, hs, -⟩ := takeFunction_eq_some_iff.mp (Reading.takes_ofOption.mp taken)
    exact ⟨t, .ofFunction ht, hs⟩
  · split at taken
    · rename_i digits _ number
      obtain ⟨hs, run, -⟩ := takePosition_eq_some_iff.mp number
      dsimp only at taken
      split at taken
      · rename_i below
        obtain ⟨rfl, rfl⟩ := Reading.takes_read.mp taken
        exact ⟨digits, .ofDigits run below, hs⟩
      · exact absurd taken Reading.not_takes_broken
    · rename_i number
      split at taken
      · rename_i e _ shorter inner
        obtain ⟨rfl, rfl⟩ := Reading.takes_read.mp taken
        obtain ⟨t, ht, hs⟩ := sound s h e _ ⟨shorter, inner⟩
        refine ⟨t, .ofExpr ht ?_, hs⟩
        apply Classical.byContradiction
        intro digits
        simp only [not_exists, not_and, Decidable.not_not] at digits
        have nonempty : t ≠ [] := by
          rintro rfl
          rw [hs, List.nil_append] at shorter
          exact Nat.lt_irrefl _ shorter
        have whole := takePosition_eq_some_iff.mpr ⟨hs, ⟨nonempty, digits⟩, closed⟩
        rw [number] at whole
        cases whole
      · exact absurd taken Reading.not_takes_absent
      · exact absurd taken Reading.not_takes_broken

theorem readPredicate_sound (sound : nested.Sound) (s : List Char) (h : s.length ≤ bound)
    (p : Predicate) (rest : List Char) (taken : (readPredicate nested s h).Takes p rest) :
    ∃ t, PredicateText t p ∧ s = t ++ rest := by
  unfold readPredicate at taken
  split at taken
  · rename_i inner _
    dsimp only at taken
    split at taken
    · rename_i q behind shorter body
      split at taken
      · rename_i after closing
        obtain ⟨rfl, rfl⟩ := Reading.takes_read.mp taken
        obtain ⟨t, ht, hinner⟩ := readBody_sound sound ⟨shorter, body⟩ (by rw [closing]; rfl)
        obtain ⟨a, ha, hs⟩ := exists_spaces inner
        obtain ⟨b, hb, hbehind⟩ := exists_spaces behind
        refine ⟨_, .intro ha hb ht, ?_⟩
        rw [hs, hinner, hbehind, closing]
        simp
      · exact absurd taken Reading.not_takes_absent
    · exact absurd taken Reading.not_takes_absent
    · exact absurd taken Reading.not_takes_broken
  · exact absurd taken Reading.not_takes_absent

theorem finishStep_eq_ok {axis : Axis} {test : NodeTest} {h : s.length ≤ bound}
    {more : Several Predicate s} {step : Step} :
    finishStep nested axis test s h = .ok (more, step) ↔
      several (readPredicate nested) s h = .ok more ∧ step = .mk axis test more.values := by
  unfold finishStep
  cases several (readPredicate nested) s h with
  | error cause => simp [Except.map]
  | ok found =>
    simp only [Except.map, Except.ok.injEq, Prod.mk.injEq]
    constructor
    · intro ⟨sameMore, sameStep⟩
      exact ⟨sameMore, sameMore ▸ sameStep.symm⟩
    · intro ⟨sameMore, sameStep⟩
      exact ⟨sameMore, sameMore ▸ sameStep.symm⟩

theorem finishStep_sound (sound : nested.Sound) {axis : Axis} {test : NodeTest}
    {h : s.length ≤ bound} {more : Several Predicate s} {step : Step}
    (eq : finishStep nested axis test s h = .ok (more, step)) :
    ∃ u ps, Repeated PredicateText u ps ∧ s = u ++ more.rest ∧ step = .mk axis test ps := by
  obtain ⟨found, rfl⟩ := finishStep_eq_ok.mp eq
  obtain ⟨u, hu, hs⟩ := several_sound (readPredicate_sound sound) s h more found
  exact ⟨u, _, hu, hs, rfl⟩

theorem readStep_sound (sound : nested.Sound) (s : List Char) (h : s.length ≤ bound) (step : Step)
    (rest : List Char) (taken : (readStep nested s h).Takes step rest) :
    ∃ t, StepText t step ∧ s = t ++ rest := by
  unfold readStep at taken
  split at taken
  · exact absurd taken Reading.not_takes_broken
  · rename_i axis behind shorter moved
    obtain ⟨a, ha, rfl⟩ := readAxis_sound ⟨shorter, moved⟩
    split at taken
    · rename_i test more hasTest
      obtain ⟨t, ht, rfl⟩ := takeTest_sound hasTest
      dsimp only at taken
      split at taken
      · exact absurd taken Reading.not_takes_broken
      · rename_i finished
        obtain ⟨rfl, rfl⟩ := Reading.takes_read.mp taken
        obtain ⟨u, ps, hu, hs, rfl⟩ := finishStep_sound sound finished
        rw [hs, ← List.append_assoc] at ha
        exact ⟨_, .full ha.of_append ht hu, by simpa using hs⟩
    · split at taken
      · rename_i omittable
        split at taken
        · exact absurd taken Reading.not_takes_broken
        · rename_i finished
          obtain ⟨rfl, rfl⟩ := Reading.takes_read.mp taken
          obtain ⟨u, ps, hu, hs, rfl⟩ := finishStep_sound sound finished
          rw [hs] at ha
          exact ⟨_, .axisOnly ha.of_append (testOmittable_iff.mp omittable) hu, by simpa using hs⟩
      · exact absurd taken Reading.not_takes_broken
  · rename_i far sought unmoved
    have noAxis := readAxis_absent_iff.mp ⟨far, sought, unmoved⟩
    split at taken
    · rename_i test behind hasTest
      obtain ⟨t, ht, rfl⟩ := takeTest_sound hasTest
      dsimp only at taken
      split at taken
      · exact absurd taken Reading.not_takes_broken
      · rename_i finished
        obtain ⟨rfl, rfl⟩ := Reading.takes_read.mp taken
        obtain ⟨u, ps, hu, hs, rfl⟩ := finishStep_sound sound finished
        refine ⟨_, .testOnly (fun ahead => noAxis ?_) ht hu, by simpa using hs⟩
        rw [hs, ← List.append_assoc]
        exact ahead.append _
    · exact absurd taken Reading.not_takes_absent

theorem readNextStep_sound (sound : nested.Sound) (s : List Char) (h : s.length ≤ bound)
    (step : Step) (rest : List Char) (taken : (readNextStep nested s h).Takes step rest) :
    ∃ t, NextStepText t step ∧ s = t ++ rest := by
  unfold readNextStep at taken
  split at taken
  · split at taken
    · rename_i shorter found
      obtain ⟨rfl, rfl⟩ := Reading.takes_read.mp taken
      obtain ⟨t, ht, hs⟩ := readStep_sound sound _ _ _ _ ⟨shorter, found⟩
      exact ⟨_, .intro ht, by rw [hs]; rfl⟩
    · exact absurd taken Reading.not_takes_absent
    · exact absurd taken Reading.not_takes_broken
  · exact absurd taken Reading.not_takes_absent

theorem readSteps_sound (sound : nested.Sound) {h : s.length ≤ bound} {steps : List Step}
    (taken : (readSteps nested s h).Takes steps rest) : ∃ t, StepsText t steps ∧ s = t ++ rest := by
  unfold readSteps at taken
  split at taken
  · exact absurd taken Reading.not_takes_absent
  · exact absurd taken Reading.not_takes_broken
  · rename_i shorter first
    obtain ⟨t, ht, hs⟩ := readStep_sound sound _ _ _ _ ⟨shorter, first⟩
    split at taken
    · exact absurd taken Reading.not_takes_broken
    · rename_i others
      obtain ⟨rfl, rfl⟩ := Reading.takes_read.mp taken
      obtain ⟨u, hu, hmore⟩ := several_sound (readNextStep_sound sound) _ _ _ others
      exact ⟨_, .intro ht hu, by rw [hs, List.append_assoc, ← hmore]⟩

theorem readPath_sound (sound : nested.Sound) {h : s.length ≤ bound} {e : Expr}
    (taken : (readPath nested s h).Takes e rest) : ∃ t, PathText t e ∧ s = t ++ rest := by
  unfold readPath at taken
  split at taken
  · split at taken
    · rename_i shorter found
      obtain ⟨rfl, rfl⟩ := Reading.takes_read.mp taken
      obtain ⟨t, ht, hs⟩ := readSteps_sound sound ⟨shorter, found⟩
      exact ⟨_, .absolute ht, by rw [hs]; rfl⟩
    · exact absurd taken Reading.not_takes_absent
    · exact absurd taken Reading.not_takes_broken
  · rename_i unmarked
    split at taken
    · rename_i shorter found
      obtain ⟨rfl, rfl⟩ := Reading.takes_read.mp taken
      obtain ⟨t, ht, hs⟩ := readSteps_sound sound ⟨shorter, found⟩
      refine ⟨_, .relative ht (fun hd => ?_), hs⟩
      obtain ⟨u, rfl⟩ := List.head?_eq_some_iff.mp hd
      subst hs
      exact unmarked _ h rfl HEq.rfl
    · exact absurd taken Reading.not_takes_absent
    · exact absurd taken Reading.not_takes_broken

theorem readNextPath_sound (sound : nested.Sound) (s : List Char) (h : s.length ≤ bound) (e : Expr)
    (rest : List Char) (taken : (readNextPath nested s h).Takes e rest) :
    ∃ t, NextPathText t e ∧ s = t ++ rest := by
  unfold readNextPath at taken
  dsimp only at taken
  split at taken
  · rename_i behind bar
    split at taken
    · rename_i shorter found
      obtain ⟨rfl, rfl⟩ := Reading.takes_read.mp taken
      obtain ⟨t, ht, hpath⟩ := readPath_sound sound ⟨shorter, found⟩
      obtain ⟨a, ha, hs⟩ := exists_spaces s
      obtain ⟨b, hb, hbehind⟩ := exists_spaces behind
      refine ⟨_, .intro ha hb ht, ?_⟩
      rw [hs, bar, hbehind, hpath]
      simp
    · exact absurd taken Reading.not_takes_absent
    · exact absurd taken Reading.not_takes_broken
  · exact absurd taken Reading.not_takes_absent

theorem readBranches_sound (sound : nested.Sound) {h : s.length ≤ bound} {e : Expr}
    (taken : (readBranches nested s h).Takes e rest) : ∃ t, ExprText t e ∧ s = t ++ rest := by
  unfold readBranches at taken
  split at taken
  · exact absurd taken Reading.not_takes_absent
  · exact absurd taken Reading.not_takes_broken
  · rename_i shorter first
    obtain ⟨t, ht, hs⟩ := readPath_sound sound ⟨shorter, first⟩
    split at taken
    · exact absurd taken Reading.not_takes_broken
    · rename_i more others
      obtain ⟨rfl, rfl⟩ := Reading.takes_read.mp taken
      obtain ⟨u, hu, hmore⟩ := several_sound (readNextPath_sound sound) _ _ _ others
      generalize more.values = es at hu ⊢
      cases es with
      | nil =>
        cases hu
        exact ⟨t, .path ht, hs.trans (congrArg _ hmore)⟩
      | cons f es => exact ⟨_, .union ht hu (by simp), by rw [hs, List.append_assoc, ← hmore]⟩

/-- Expressions are read soundly: what stands in brackets is shorter than the text around it. -/
theorem readExpr_sound (s : List Char) {e : Expr} {rest : List Char}
    (taken : (readExpr s).Takes e rest) : ∃ t, ExprText t e ∧ s = t ++ rest := by
  induction hn : s.length using Nat.strongRecOn generalizing s e rest with
  | ind n ih =>
    rw [readExpr] at taken
    refine readBranches_sound (fun t shorter _ _ inner => ?_) taken
    exact ih t.length (hn ▸ shorter) t inner rfl

end TreeQuery.Path
