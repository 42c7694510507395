import TreeQuery.Proofs.Path.Ends
import TreeQuery.Proofs.Path.Soundness

namespace TreeQuery.Path

open TreeQuery.Text

/-- A complete reader takes what the grammar gives a text, if nothing behind could belong to it. -/
def NestedReader.Complete {bound : Nat} (nested : NestedReader bound) : Prop :=
  ∀ t e rest s h, ExprText t e → ExprEnd rest → s = t ++ rest → (nested s h).Takes e rest

variable {bound : Nat} {nested : NestedReader bound} {s rest : List Char}

/-- What stands behind a step adds no axis to it. -/
theorem AxisAhead.of_append {t : List Char} (nonempty : t ≠ []) (stepEnd : StepEnd rest)
    (h : AxisAhead (t ++ rest)) : AxisAhead t := by
  obtain ⟨c, u, rfl⟩ := List.exists_cons_of_ne_nil nonempty
  generalize hs : c :: u ++ rest = s at h
  cases h with
  | slash =>
    obtain rfl := (List.cons.inj hs).1
    exact .slash u
  | dot =>
    obtain rfl := (List.cons.inj hs).1
    exact .dot u
  | @full name run after =>
    rcases List.append_eq_append_iff.mp hs with ⟨v, hname, hrest⟩ | ⟨v, htext, hafter⟩
    · cases v with
      | nil => exact absurd rfl (stepEnd ':' (by simp [hrest])).2.2.1
      | cons d v =>
        have axisChar := run.2 d (by simp [hname])
        exact absurd (isAxisChar_isNameChar axisChar) (stepEnd d (by simp [hrest])).1
    · rw [htext]
      cases v with
      | nil =>
        have hrest : rest = ':' :: ':' :: after := hafter.symm
        exact absurd rfl (stepEnd ':' (by simp [hrest])).2.2.1
      | cons d v =>
        obtain ⟨rfl, hmore⟩ := List.cons.inj hafter
        cases v with
        | nil =>
          have hrest : rest = ':' :: after := hmore.symm
          exact absurd rfl (stepEnd ':' (by simp [hrest])).2.2.1
        | cons e v =>
          obtain ⟨rfl, -⟩ := List.cons.inj hmore
          exact .full run v

theorem AxisText.append {a t : List Char} {axis : Axis} (stepEnd : StepEnd rest)
    (h : AxisText a t axis) : AxisText a (t ++ rest) axis := by
  cases h with
  | slash => exact .slash
  | twoDots => exact .twoDots
  | oneDot single =>
    refine .oneDot fun hd => ?_
    cases t with
    | nil => exact (stepEnd '.' (by simpa using hd)).1 (by decide)
    | cons c t => exact single (by simpa using hd)
  | full => exact .full _

theorem Repeated.testEnd {u : List Char} {ps : List Predicate}
    (h : Repeated PredicateText u ps) (stepEnd : StepEnd rest) : TestEnd (u ++ rest) := by
  have start : ∀ t p s, PredicateText t p → TestEnd (t ++ s) := by
    intro t p s text
    obtain ⟨_, _, _⟩ := text
    exact ⟨by simp [isNameChar], by simp⟩
  exact h.good start ⟨stepEnd.stops, fun hd => (stepEnd '*' hd).2.1 rfl⟩

/-- Digits that a bracket closes behind are a whole text by themselves, and no expression. -/
theorem takePosition_expr {t : List Char} {e : Expr} (expr : ExprText t e)
    (notDigits : ∃ c ∈ t, ¬ c.isDigit) : takePosition (t ++ rest) = none := by
  apply Option.eq_none_iff_forall_ne_some.mpr
  intro ⟨digits, behind⟩ whole
  obtain ⟨eq, run, closed⟩ := takePosition_eq_some_iff.mp whole
  rcases List.append_eq_append_iff.mp eq with ⟨v, rfl, -⟩ | ⟨v, rfl, rfl⟩
  · obtain ⟨c, hc, other⟩ := notDigits
    exact other (run.2 c (List.mem_append_left _ hc))
  · obtain ⟨a, ha, hv⟩ := exists_spaces v
    have free : '[' ∉ digits ++ a := by
      simp [run.not_mem (c := '[') (by decide), ha.not_mem (c := '[') (by decide)]
    cases hskip : skipSpaces v with
    | nil =>
      -- the text would be digits and spaces, and no expression ends so
      rw [hskip, List.append_nil] at hv
      obtain ⟨u, c, hu, hc⟩ := expr.part.ends
      rcases List.eq_nil_or_concat v with rfl | ⟨w, d, rfl⟩
      · obtain ⟨c, hc, other⟩ := notDigits
        exact other (run.2 c (by simpa using hc))
      · have space : isSpace d := ha d (by simp [← hv])
        rw [List.concat_eq_append, ← List.append_assoc] at hu
        obtain rfl : d = c := by simpa using (List.append_inj' hu rfl).2
        rcases hc with hc | rfl | rfl | rfl
        · exact isSpace_not_isNameChar space hc
        all_goals exact absurd space (by decide)
    | cons c u =>
      have skipped : skipSpaces (v ++ rest) = c :: u ++ rest := by
        rw [hv, List.append_assoc, skipSpaces_append ha, hskip]
        exact skipSpaces_of_stops (stops_cons.mpr (stops_cons.mp (hskip ▸ stops_skipSpaces v)))
      rw [skipped] at closed
      obtain rfl : c = ']' := by simpa using closed
      exact free (expr.part.bracketed (digits ++ a) u (by rw [hv, hskip]; simp))

theorem readBody_complete (complete : nested.Complete) {t : List Char} {p : Predicate}
    (body : BodyText t p) (closed : (skipSpaces rest).head? = some ']') (h : s.length < bound)
    (hs : s = t ++ rest) : (readBody nested s h).Takes p rest := by
  unfold readBody
  cases body with
  | ofAttribute text =>
    have taken := takeAttribute_eq_some_iff.mpr ⟨t, text, hs⟩
    obtain ⟨_, _, _, _⟩ := text
    subst hs
    exact Reading.takes_ofOption.mpr taken
  | ofFunction text =>
    have stop : Stops isFunctionChar rest :=
      stops_of_closed (fun _ => isFunctionChar_isNameChar) closed
    have taken := takeFunction_eq_some_iff.mpr ⟨t, text, hs, stop⟩
    obtain ⟨_, _⟩ := text
    subst hs
    exact Reading.takes_ofOption.mpr taken
  | ofDigits run below =>
    have taken := takePosition_eq_some_iff.mpr ⟨hs, run, closed⟩
    obtain ⟨c, u, rfl⟩ := List.exists_cons_of_ne_nil run.1
    have digit := run.2 c (by simp)
    split
    · obtain rfl := (List.cons.inj hs).1
      exact absurd digit (by decide)
    · obtain rfl := (List.cons.inj hs).1
      exact absurd digit (by decide)
    · split
      · rename_i found
        rw [taken] at found
        simp only [Option.some.injEq, Prod.mk.injEq] at found
        obtain ⟨rfl, rfl⟩ := found
        have limit : Nat.ofDigitChars 10 (c :: u) 0 < positionLimit := below
        simp [limit]
      · rename_i none
        rw [taken] at none
        cases none
  | ofExpr expr notDigits =>
    obtain ⟨c, u, rfl, hc⟩ := expr.opens
    split
    · obtain rfl := (List.cons.inj hs).1
      exact absurd hc (by decide)
    · obtain rfl := (List.cons.inj hs).1
      exact absurd hc (by decide)
    · have none : takePosition s = none := hs ▸ takePosition_expr expr notDigits
      split
      · rename_i found
        rw [none] at found
        cases found
      · obtain ⟨shorter, taken⟩ := complete _ _ rest s h expr (exprEnd_of_closed closed) hs
        simp [taken]

theorem BodyText.stops {t : List Char} {p : Predicate} (h : BodyText t p) :
    Stops isSpace (t ++ rest) := by
  cases h with
  | ofAttribute text =>
    obtain ⟨_, _, _, _⟩ := text
    simp [isSpace]
  | ofFunction text =>
    obtain ⟨_, _⟩ := text
    simp [isSpace]
  | ofDigits run below =>
    obtain ⟨c, u, rfl⟩ := List.exists_cons_of_ne_nil run.1
    have opens : Opens (c :: u) := ⟨c, u, rfl, .inl (isDigit_isNameChar (run.2 c (by simp)))⟩
    exact opens.stops_isSpace rest
  | ofExpr expr notDigits => exact expr.opens.stops_isSpace rest

theorem readPredicate_complete (complete : nested.Complete) (t : List Char) (p : Predicate)
    (rest s : List Char) (h : s.length ≤ bound) (text : PredicateText t p) (hs : s = t ++ rest) :
    (readPredicate nested s h).Takes p rest := by
  obtain ⟨before, after, body⟩ := text
  rename_i a b t
  simp only [List.cons_append, List.append_assoc, List.nil_append] at hs
  subst hs
  have closing : skipSpaces (b ++ ']' :: rest) = ']' :: rest := by
    rw [skipSpaces_append after, skipSpaces_of_stops (by simp [isSpace])]
  have inside : skipSpaces (a ++ (t ++ (b ++ ']' :: rest))) = t ++ (b ++ ']' :: rest) := by
    rw [skipSpaces_append before, skipSpaces_of_stops body.stops]
  have shorter := length_skipSpaces_le (a ++ (t ++ (b ++ ']' :: rest)))
  rw [List.length_cons] at h
  obtain ⟨_, taken⟩ := readBody_complete complete body (by rw [closing]; rfl)
    (h := by omega) inside
  simp only [readPredicate, taken]
  split
  · rename_i found
    rw [closing] at found
    simp only [List.cons.injEq, true_and] at found
    simp [found]
  · rename_i other
    exact absurd closing (other _)

theorem finishStep_complete (complete : nested.Complete) (axis : Axis) (test : NodeTest)
    {u : List Char} {ps : List Predicate} (predicates : Repeated PredicateText u ps)
    (stepEnd : StepEnd rest) (h : s.length ≤ bound) (hs : s = u ++ rest) :
    ∃ more, finishStep nested axis test s h = .ok (more, .mk axis test ps) ∧ more.rest = rest := by
  have stop : ∀ h, ∃ far sought, readPredicate nested rest h = .absent far sought := by
    intro h
    unfold readPredicate
    split
    · exact absurd rfl (stepEnd '[' (by simp)).2.2.2
    · exact ⟨_, _, rfl⟩
  obtain ⟨more, found, rfl, left⟩ := several_complete
    (fun t p r s h text (_ : True) hs => readPredicate_complete complete t p r s h text hs)
    (fun _ _ _ _ => trivial) trivial stop predicates s h hs
  exact ⟨more, finishStep_eq_ok.mpr ⟨found, rfl⟩, left⟩

theorem readStep_complete (complete : nested.Complete) (t : List Char) (step : Step)
    (rest s : List Char) (h : s.length ≤ bound) (text : StepText t step) (stepEnd : StepEnd rest)
    (hs : s = t ++ rest) : (readStep nested s h).Takes step rest := by
  unfold readStep
  cases text with
  | @full a t u axis test ps hasAxis hasTest predicates =>
    have hs' : s = a ++ ((t ++ u) ++ rest) := by rw [hs, List.append_assoc]
    obtain ⟨shorter, moved⟩ := readAxis_complete (hasAxis.append stepEnd) hs'
    have tested := takeTest_complete hasTest (predicates.testEnd stepEnd).1
    rw [← List.append_assoc] at tested
    simp only [moved]
    split
    · rename_i found
      rw [tested] at found
      simp only [Option.some.injEq, Prod.mk.injEq] at found
      obtain ⟨rfl, rfl⟩ := found
      have fits := takeTest_shorter tested
      obtain ⟨more, finished, left⟩ := finishStep_complete complete axis test predicates
        stepEnd (h := by omega) rfl
      simp [finished, left]
    · rename_i none
      rw [tested] at none
      cases none
  | @axisOnly a u axis ps hasAxis omittable predicates =>
    have hs' : s = a ++ (u ++ rest) := by rw [hs, List.append_assoc]
    obtain ⟨shorter, moved⟩ := readAxis_complete (hasAxis.append stepEnd) hs'
    have ends := predicates.testEnd stepEnd
    have untested := takeTest_eq_none ends.2 ends.1
    simp only [moved]
    split
    · rename_i found
      rw [untested] at found
      cases found
    · have may : axis.testOmittable = true := testOmittable_iff.mpr omittable
      obtain ⟨more, finished, left⟩ := finishStep_complete complete axis .any predicates
        stepEnd (h := rest_within h shorter) rfl
      simp [may, finished, left]
  | @testOnly t u test ps noAxis hasTest predicates =>
    have nonempty : t ++ u ≠ [] := by
      obtain ⟨c, v, rfl, _⟩ := hasTest.opens
      simp
    obtain ⟨far, sought, unmoved⟩ := readAxis_absent_iff.mpr
      (fun ahead => noAxis (AxisAhead.of_append nonempty stepEnd (hs ▸ ahead)))
    have tested := takeTest_complete hasTest (predicates.testEnd stepEnd).1
    rw [← List.append_assoc, ← hs] at tested
    simp only [unmoved]
    split
    · rename_i found
      rw [tested] at found
      simp only [Option.some.injEq, Prod.mk.injEq] at found
      obtain ⟨rfl, rfl⟩ := found
      have fits := takeTest_shorter tested
      obtain ⟨more, finished, left⟩ := finishStep_complete complete .child test predicates
        stepEnd (h := by omega) rfl
      simp [finished, left]
    · rename_i none
      rw [tested] at none
      cases none

theorem readNextStep_complete (complete : nested.Complete) (t : List Char) (step : Step)
    (rest s : List Char) (h : s.length ≤ bound) (text : NextStepText t step)
    (stepEnd : StepEnd rest) (hs : s = t ++ rest) : (readNextStep nested s h).Takes step rest := by
  obtain ⟨text⟩ := text
  unfold readNextStep
  split
  · rename_i fits
    obtain ⟨shorter, taken⟩ := readStep_complete complete _ step rest _ (Nat.le_of_succ_le fits)
      text stepEnd (List.cons.inj hs).2
    simp [taken]
  · rename_i other
    subst hs
    exact (other _ h rfl HEq.rfl).elim

theorem readSteps_complete (complete : nested.Complete) {t : List Char} {steps : List Step}
    (text : StepsText t steps) (pathEnd : PathEnd rest) (h : s.length ≤ bound)
    (hs : s = t ++ rest) : (readSteps nested s h).Takes steps rest := by
  obtain ⟨first, more⟩ := text
  rename_i t u step steps
  rw [List.append_assoc] at hs
  have start : ∀ t step rest, NextStepText t step → StepEnd (t ++ rest) := by
    intro t step rest text
    obtain ⟨_⟩ := text
    simp [StepEnd, isNameChar]
  have stop : ∀ h, ∃ far sought, readNextStep nested rest h = .absent far sought := by
    intro h
    unfold readNextStep
    split
    · exact absurd rfl pathEnd.2
    · exact ⟨_, _, rfl⟩
  have behind : StepEnd (u ++ rest) := more.good start pathEnd.1
  obtain ⟨shorter, taken⟩ := readStep_complete complete t step _ s h first behind hs
  obtain ⟨found, others, rfl, left⟩ := several_complete (readNextStep_complete complete) start
    pathEnd.1 stop more (u ++ rest) (rest_within h shorter) rfl
  simp only [readSteps, taken, others]
  simp [left]

theorem readPath_complete (complete : nested.Complete) {t : List Char} {e : Expr}
    (text : PathText t e) (pathEnd : PathEnd rest) (h : s.length ≤ bound) (hs : s = t ++ rest) :
    (readPath nested s h).Takes e rest := by
  cases text with
  | absolute steps =>
    unfold readPath
    split
    · rename_i fits
      obtain ⟨shorter, taken⟩ := readSteps_complete complete steps pathEnd
        (Nat.le_of_succ_le fits) (List.cons.inj hs).2
      simp [taken]
    · rename_i other
      subst hs
      exact (other _ h rfl HEq.rfl).elim
  | relative steps unmarked =>
    obtain ⟨shorter, taken⟩ := readSteps_complete complete steps pathEnd h hs
    unfold readPath
    split
    · obtain ⟨c, u, rfl, -⟩ := steps.opens
      obtain rfl := (List.cons.inj hs).1
      exact absurd rfl unmarked
    · simp [taken]

theorem readNextPath_complete (complete : nested.Complete) (t : List Char) (e : Expr)
    (rest s : List Char) (h : s.length ≤ bound) (text : NextPathText t e) (pathEnd : PathEnd rest)
    (hs : s = t ++ rest) : (readNextPath nested s h).Takes e rest := by
  obtain ⟨before, after, path⟩ := text
  rename_i a b t
  simp only [List.append_assoc, List.cons_append] at hs
  have bar : skipSpaces s = '|' :: (b ++ (t ++ rest)) := by
    rw [hs, skipSpaces_append before, skipSpaces_of_stops (by simp [isSpace])]
  have inside : skipSpaces (b ++ (t ++ rest)) = t ++ rest := by
    rw [skipSpaces_append after, skipSpaces_of_stops (path.opens.stops_isSpace rest)]
  unfold readNextPath
  dsimp only
  split
  · rename_i found
    rw [bar] at found
    obtain rfl := (List.cons.inj found).2
    have fits : (skipSpaces (b ++ (t ++ rest))).length ≤ bound := by
      have before := length_skipSpaces_le s
      have after := length_skipSpaces_le (b ++ (t ++ rest))
      rw [bar, List.length_cons] at before
      omega
    obtain ⟨shorter, taken⟩ := readPath_complete complete path pathEnd fits inside
    simp [taken]
  · rename_i other
    exact absurd bar (other _)

theorem readBranches_complete (complete : nested.Complete) {t : List Char} {e : Expr}
    (text : ExprText t e) (exprEnd : ExprEnd rest) (h : s.length ≤ bound) (hs : s = t ++ rest) :
    (readBranches nested s h).Takes e rest := by
  have start : ∀ t e rest, NextPathText t e → PathEnd (t ++ rest) := by
    intro t e rest text
    obtain ⟨before, _, _⟩ := text
    rw [List.append_assoc]
    exact pathEnd_of_spaces before ⟨by simp [StepEnd, isNameChar], by simp⟩
  have stop : ∀ h, ∃ far sought, readNextPath nested rest h = .absent far sought := by
    intro h
    unfold readNextPath
    dsimp only
    split
    · rename_i found
      exact absurd (by rw [found]; rfl) exprEnd.2
    · exact ⟨_, _, rfl⟩
  unfold readBranches
  cases text with
  | path path =>
    obtain ⟨shorter, taken⟩ := readPath_complete complete path exprEnd.1 h hs
    obtain ⟨more, found, values, left⟩ := several_complete (readNextPath_complete complete) start
      exprEnd.1 stop .nil rest (rest_within h shorter) rfl
    simp [taken, found, values, left, combine]
  | @union t u e es first others nonempty =>
    rw [List.append_assoc] at hs
    have behind : PathEnd (u ++ rest) := others.good start exprEnd.1
    obtain ⟨shorter, taken⟩ := readPath_complete complete first behind h hs
    obtain ⟨more, found, rfl, left⟩ := several_complete (readNextPath_complete complete) start
      exprEnd.1 stop others (u ++ rest) (rest_within h shorter) rfl
    obtain ⟨f, fs, eq⟩ := List.exists_cons_of_ne_nil nonempty
    simp [taken, found, left, eq, combine]

theorem readExpr_complete {t : List Char} {e : Expr} (text : ExprText t e) (exprEnd : ExprEnd rest)
    (hs : s = t ++ rest) : (readExpr s).Takes e rest := by
  induction hn : s.length using Nat.strongRecOn generalizing s t e rest with
  | ind n ih =>
    rw [readExpr]
    refine readBranches_complete (fun t e rest s shorter text exprEnd hs => ?_) text exprEnd _ hs
    exact ih s.length (hn ▸ shorter) text exprEnd hs rfl

theorem parse_eq_ok_iff_takes {text : String} {e : Expr} :
    Expr.parse text = .ok e ↔ (readExpr (trim text.toList)).Takes e [] := by
  unfold Expr.parse
  dsimp only
  constructor
  · intro h
    split at h <;> simp_all
  · intro h
    obtain ⟨shorter, taken⟩ := h
    simp [taken]

/-- A text has at most one meaning. -/
theorem ExprText.unique {t : List Char} {e f : Expr} (he : ExprText t e) (hf : ExprText t f) :
    e = f := by
  have first := readExpr_complete he exprEnd_nil (List.append_nil t).symm
  obtain ⟨_, second⟩ := readExpr_complete hf exprEnd_nil (List.append_nil t).symm
  rw [second] at first
  exact (Reading.takes_read.mp first).1.symm

/-- The parser accepts the texts of the grammar, with white space around them, and no others. -/
theorem parse_eq_ok_iff (text : String) (e : Expr) :
    Expr.parse text = .ok e ↔ ExprText (trim text.toList) e := by
  rw [parse_eq_ok_iff_takes]
  constructor
  · intro taken
    obtain ⟨t, ht, hs⟩ := readExpr_sound _ taken
    rw [List.append_nil] at hs
    exact hs ▸ ht
  · intro text
    exact readExpr_complete text exprEnd_nil (List.append_nil _).symm

/-- The parser accepts exactly the texts of the grammar, and reads each in the one way there is. -/
theorem parse_reads_grammar (text : String) :
    (∀ e, Expr.parse text = .ok e ↔ ExprText (trim text.toList) e) ∧
    (∀ e f, ExprText (trim text.toList) e → ExprText (trim text.toList) f → e = f) :=
  ⟨parse_eq_ok_iff text, fun _ _ => ExprText.unique⟩

end TreeQuery.Path
