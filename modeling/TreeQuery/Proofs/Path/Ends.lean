import TreeQuery.Proofs.Path.Reading

namespace TreeQuery.Path

open TreeQuery.Text

/-- The first characters of expressions. -/
def Opens (t : List Char) : Prop := ∃ c u, t = c :: u ∧ (isNameChar c ∨ c = '/' ∨ c = '*')

/-- The last characters of expressions. -/
def Ends (t : List Char) : Prop :=
  ∃ u c, t = u ++ [c] ∧ (isNameChar c ∨ c = ':' ∨ c = '*' ∨ c = ']')

/-- No bracket is closed before one is opened. -/
def Bracketed (t : List Char) : Prop := ∀ x y, t = x ++ ']' :: y → '[' ∈ x

theorem Opens.append {t : List Char} (h : Opens t) (u : List Char) : Opens (t ++ u) := by
  obtain ⟨c, v, rfl, hc⟩ := h
  exact ⟨c, v ++ u, rfl, hc⟩

theorem Ends.prepend {t : List Char} (h : Ends t) (u : List Char) : Ends (u ++ t) := by
  obtain ⟨v, c, rfl, hc⟩ := h
  exact ⟨u ++ v, c, by rw [List.append_assoc], hc⟩

theorem Bracketed.of_not_mem {t : List Char} (h : ']' ∉ t) : Bracketed t := by
  rintro x y rfl
  simp at h

theorem Bracketed.append {t u : List Char} (ht : Bracketed t) (hu : Bracketed u) :
    Bracketed (t ++ u) := by
  intro x y eq
  rcases List.append_eq_append_iff.mp eq with ⟨v, rfl, hv⟩ | ⟨v, hv, hy⟩
  · exact List.mem_append_right _ (hu v y hv)
  · cases v with
    | nil =>
      rw [List.append_nil] at hv
      exact absurd (hu [] y (by simpa using hy.symm)) (by simp)
    | cons c v =>
      obtain rfl : ']' = c := (List.cons.inj hy).1
      exact ht x v hv

/-- What an expression is made of: it ends as expressions do, and its brackets are in order. -/
structure Part (t : List Char) : Prop where
  ends : Ends t
  bracketed : Bracketed t

theorem Part.prepend {t u : List Char} (h : Part t) (hu : ']' ∉ u) : Part (u ++ t) :=
  ⟨h.ends.prepend u, (Bracketed.of_not_mem hu).append h.bracketed⟩

theorem Repeated.part {α : Type} {Item : List Char → α → Prop} (item : ∀ t a, Item t a → Part t)
    {u : List Char} {as : List α} (h : Repeated Item u as) {t : List Char} (ht : Part t) :
    Part (t ++ u) := by
  induction h generalizing t with
  | nil => simpa using ht
  | @cons v u a as first _ ih =>
    have hv := item v a first
    rw [← List.append_assoc]
    exact ih ⟨hv.ends.prepend t, ht.bracketed.append hv.bracketed⟩

theorem PredicateText.part (t : List Char) (p : Predicate) (h : PredicateText t p) : Part t := by
  obtain ⟨_, _, _⟩ := h
  rename_i a b t _ _ _
  refine ⟨⟨'[' :: (a ++ (t ++ b)), ']', by simp, by simp⟩, fun x y eq => ?_⟩
  cases x with
  | nil => simp at eq
  | cons c x =>
    obtain rfl : '[' = c := (List.cons.inj eq).1
    simp

theorem RunOf.not_mem {p : Char → Bool} {t : List Char} (h : RunOf p t) {c : Char} (hc : ¬ p c) :
    c ∉ t := fun hm => hc (h.2 c hm)

theorem AxisText.not_mem {a behind : List Char} {axis : Axis} (h : AxisText a behind axis) :
    ']' ∉ a := by
  cases h with
  | full =>
    have := (runOf_isAxisChar_name axis).not_mem (c := ']') (by decide)
    simp [this]
  | _ => simp

theorem AxisText.part {a behind : List Char} {axis : Axis} (h : AxisText a behind axis)
    (omittable : axis = .parent ∨ axis = .self) : Part a := by
  refine ⟨?_, .of_not_mem h.not_mem⟩
  cases h with
  | slash => simp at omittable
  | twoDots => exact ⟨['.'], '.', rfl, by decide⟩
  | oneDot => exact ⟨[], '.', rfl, by decide⟩
  | full => exact ⟨axis.name.toList ++ [':'], ':', by simp, by simp⟩

theorem TestText.part {t : List Char} {test : NodeTest} (h : TestText t test) : Part t := by
  cases h with
  | any => exact ⟨⟨[], '*', rfl, by simp⟩, .of_not_mem (by simp)⟩
  | named run =>
    refine ⟨?_, .of_not_mem (run.not_mem (by decide))⟩
    rcases List.eq_nil_or_concat t with rfl | ⟨u, c, rfl⟩
    · exact absurd rfl run.1
    · exact ⟨u, c, by simp, .inl (run.2 c (by simp))⟩

theorem StepText.part {t : List Char} {s : Step} (h : StepText t s) : Part t := by
  cases h with
  | full hasAxis hasTest predicates =>
    exact (predicates.part PredicateText.part hasTest.part).prepend hasAxis.not_mem
  | axisOnly hasAxis omittable predicates =>
    exact predicates.part PredicateText.part (hasAxis.part omittable)
  | testOnly _ hasTest predicates => exact predicates.part PredicateText.part hasTest.part

theorem NextStepText.part (t : List Char) (s : Step) (h : NextStepText t s) : Part t := by
  obtain ⟨step⟩ := h
  exact step.part.prepend (u := ['/']) (by simp)

theorem StepsText.part {t : List Char} {ss : List Step} (h : StepsText t ss) : Part t := by
  obtain ⟨first, more⟩ := h
  exact more.part NextStepText.part first.part

theorem PathText.part {t : List Char} {e : Expr} (h : PathText t e) : Part t := by
  cases h with
  | absolute steps => exact steps.part.prepend (u := ['/']) (by simp)
  | relative steps => exact steps.part

theorem Spaces.not_mem {a : List Char} (h : Spaces a) {c : Char} (hc : ¬ isSpace c) : c ∉ a :=
  fun hm => hc (h c hm)

theorem NextPathText.part (t : List Char) (e : Expr) (h : NextPathText t e) : Part t := by
  obtain ⟨before, after, path⟩ := h
  rename_i a b t
  have free : ']' ∉ a ++ '|' :: b := by
    simp [before.not_mem (c := ']') (by decide), after.not_mem (c := ']') (by decide)]
  simpa using path.part.prepend free

theorem ExprText.part {t : List Char} {e : Expr} (h : ExprText t e) : Part t := by
  cases h with
  | path path => exact path.part
  | union first more _ => exact more.part NextPathText.part first.part

theorem AxisText.opens {a behind : List Char} {axis : Axis} (h : AxisText a behind axis) :
    Opens a := by
  cases h with
  | slash => exact ⟨'/', [], rfl, by simp⟩
  | twoDots => exact ⟨'.', ['.'], rfl, by decide⟩
  | oneDot => exact ⟨'.', [], rfl, by decide⟩
  | full =>
    have run := runOf_isAxisChar_name axis
    obtain ⟨c, u, eq⟩ := List.exists_cons_of_ne_nil run.1
    rw [eq] at run ⊢
    exact ⟨c, _, rfl, .inl (isAxisChar_isNameChar (run.2 c (by simp)))⟩

theorem TestText.opens {t : List Char} {test : NodeTest} (h : TestText t test) : Opens t := by
  cases h with
  | any => exact ⟨'*', [], rfl, by simp⟩
  | named run =>
    obtain ⟨c, u, rfl⟩ := List.exists_cons_of_ne_nil run.1
    exact ⟨c, u, rfl, .inl (run.2 c (by simp))⟩

theorem StepText.opens {t : List Char} {s : Step} (h : StepText t s) : Opens t := by
  cases h with
  | full hasAxis => exact hasAxis.opens.append _
  | axisOnly hasAxis => exact hasAxis.opens.append _
  | testOnly _ hasTest => exact hasTest.opens.append _

theorem StepsText.opens {t : List Char} {ss : List Step} (h : StepsText t ss) : Opens t := by
  obtain ⟨first, _⟩ := h
  exact first.opens.append _

theorem PathText.opens {t : List Char} {e : Expr} (h : PathText t e) : Opens t := by
  cases h with
  | absolute => exact ⟨'/', _, rfl, by simp⟩
  | relative steps => exact steps.opens

theorem ExprText.opens {t : List Char} {e : Expr} (h : ExprText t e) : Opens t := by
  cases h with
  | path path => exact path.opens
  | union first => exact first.opens.append _

theorem Opens.stops_isSpace {t : List Char} (h : Opens t) (rest : List Char) :
    Stops isSpace (t ++ rest) := by
  obtain ⟨c, u, rfl, hc⟩ := h
  apply stops_cons.mpr
  intro space
  rcases hc with hc | rfl | rfl
  · exact isSpace_not_isNameChar space hc
  all_goals exact absurd space (by decide)

theorem isNameChar_not_isBlank {c : Char} (h : isNameChar c) : ¬ isBlank c := by
  have alphanum : c.isAlphanum = (c.isUpper || c.isLower || c.isDigit) := rfl
  have upper : c.isUpper = decide ('A'.val ≤ c.val ∧ c.val ≤ 'Z'.val) := rfl
  have lower : c.isLower = (decide ('a'.val ≤ c.val) && decide (c.val ≤ 'z'.val)) := rfl
  simp only [isNameChar, alphanum, upper, lower, Char.isDigit, Bool.or_eq_true, Bool.and_eq_true,
    decide_eq_true_eq, UInt32.le_iff_toNat_le, ge_iff_le] at h
  rcases h with ((((h | rfl) | rfl) | rfl) | rfl) | rfl
  · have : c.toNat = c.val.toNat := rfl
    have : 'A'.val.toNat = 65 ∧ 'Z'.val.toNat = 90 := ⟨rfl, rfl⟩
    have : 'a'.val.toNat = 97 ∧ 'z'.val.toNat = 122 := ⟨rfl, rfl⟩
    have : '0'.val.toNat = 48 ∧ '9'.val.toNat = 57 := ⟨rfl, rfl⟩
    simp only [isBlank, blankRanges, List.any_cons, List.any_nil, Bool.or_eq_true,
      Bool.and_eq_true, decide_eq_true_eq, Bool.or_false]
    omega
  all_goals decide

theorem trim_eq_self {t : List Char} (opens : Opens t) (ends : Ends t) : trim t = t := by
  have front : t.dropWhile isBlank = t := by
    obtain ⟨c, u, rfl, hc⟩ := opens
    have : ¬ isBlank c := by
      rcases hc with hc | rfl | rfl
      · exact isNameChar_not_isBlank hc
      all_goals decide
    simp [this]
  have back : t.reverse.dropWhile isBlank = t.reverse := by
    obtain ⟨u, c, rfl, hc⟩ := ends
    have : ¬ isBlank c := by
      rcases hc with hc | rfl | rfl | rfl
      · exact isNameChar_not_isBlank hc
      all_goals decide
    simp [this]
  rw [trim, trimStart, front, trimEnd, back, List.reverse_reverse]

/-- Nothing that could still belong to a node test. -/
def TestEnd (s : List Char) : Prop := Stops isNameChar s ∧ s.head? ≠ some '*'

/-- Nothing that could still belong to a step. -/
def StepEnd (s : List Char) : Prop :=
  ∀ c ∈ s.head?, ¬ isNameChar c ∧ c ≠ '*' ∧ c ≠ ':' ∧ c ≠ '['

/-- Nothing that could still belong to a path. -/
def PathEnd (s : List Char) : Prop := StepEnd s ∧ s.head? ≠ some '/'

/-- Nothing that could still belong to an expression. -/
def ExprEnd (s : List Char) : Prop := PathEnd s ∧ (skipSpaces s).head? ≠ some '|'

theorem StepEnd.stops {s : List Char} (h : StepEnd s) : Stops isNameChar s :=
  fun c hc => (h c hc).1

theorem stepEnd_of_spaces {a : List Char} (h : Spaces a) {s : List Char} (hs : StepEnd s) :
    StepEnd (a ++ s) := by
  cases a with
  | nil => exact hs
  | cons c a =>
    have space := h c (by simp)
    intro d hd
    obtain rfl : c = d := by simpa using hd
    refine ⟨isSpace_not_isNameChar space, ?_, ?_, ?_⟩ <;> rintro rfl <;> revert space <;> decide

theorem pathEnd_of_spaces {a : List Char} (h : Spaces a) {s : List Char} (hs : PathEnd s) :
    PathEnd (a ++ s) := by
  refine ⟨stepEnd_of_spaces h hs.1, ?_⟩
  cases a with
  | nil => exact hs.2
  | cons c a =>
    have space := h c (by simp)
    rw [List.cons_append, List.head?_cons]
    rintro ⟨⟩
    exact absurd space (by decide)

theorem exprEnd_nil : ExprEnd [] := by simp [ExprEnd, PathEnd, StepEnd, skipSpaces]

theorem exprEnd_of_closed {s : List Char} (h : (skipSpaces s).head? = some ']') : ExprEnd s := by
  obtain ⟨a, ha, hs⟩ := exists_spaces s
  obtain ⟨u, hu⟩ := List.head?_eq_some_iff.mp h
  refine ⟨?_, by simp [h]⟩
  rw [hs, hu]
  exact pathEnd_of_spaces ha ⟨by simp [StepEnd, isNameChar], by simp⟩

end TreeQuery.Path
