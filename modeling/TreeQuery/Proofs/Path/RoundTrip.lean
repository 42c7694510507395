import TreeQuery.Proofs.Path.Scan

namespace TreeQuery.Path

open TreeQuery.Text Scan

/-- What a scan comes to behind a text in which every gap is as it `ought` to be. -/
def verdict (ought : Bool) : Scan := if ought then word else torn

theorem scan_flatMap {α : Type} {f : α → List Char} {good : α → Bool} (as : List α)
    (item : ∀ a ∈ as, scan word (f a) = verdict (good a)) (first : Bool) :
    scan (verdict first) (as.flatMap f) = verdict (first && as.all good) := by
  induction as generalizing first with
  | nil => simp
  | cons a as ih =>
    have rest := fun b => ih (fun c hc => item c (List.mem_cons_of_mem a hc)) b
    rw [List.flatMap_cons, scan_append, List.all_cons, ← Bool.and_assoc]
    cases first with
    | false => simp [verdict]
    | true =>
      rw [verdict, if_pos rfl, item a (by simp), Bool.true_and]
      exact rest (good a)

/-- The scan of a well-formed expression's written form fails exactly if a disjunction is in it. -/
theorem partsInduction_verdict :
    PartsInduction
      (fun e => ∀ inside state, e.meets wellFormed inside → Fresh state →
        scan state e.written = verdict (e.meets withoutEither inside))
      (fun s => ∀ inside state, s.meets wellFormed inside → Fresh state →
        scan state s.written = verdict (s.meets withoutEither inside))
      (fun p => ∀ inside state, p.meets wellFormed inside → Fresh state →
        scan state p.written = verdict (p.meets withoutEither inside)) where
  path absolute steps ih := by
    intro inside state well fresh
    obtain ⟨s, ss, rfl, parts⟩ := steps_nonempty well
    have all : ∀ state, Fresh state → scan state (Step.writtenAll (s :: ss)) =
        verdict (Step.allMeet withoutEither inside (s :: ss)) := by
      intro state fresh
      rw [Step.writtenAll_cons, scan_append, ih s (by simp) inside state (parts s (by simp)) fresh,
        Step.allMeet_eq, List.all_cons]
      apply scan_flatMap
      intro t ht
      rw [scan_cons, next_plain fresh_word (by decide)]
      have ht := List.mem_cons_of_mem s ht
      exact ih t ht inside word (parts t ht) fresh_word
    rw [Expr.written, Expr.meets, scan_append, withoutEither, Bool.true_and]
    cases absolute with
    | false => exact all state fresh
    | true =>
      rw [if_pos rfl, scan_cons, next_plain fresh (by decide)]
      exact all word fresh_word
  union branches ih := by
    intro inside state well fresh
    obtain ⟨e, f, es, rfl, paths⟩ := branches_paths well
    rw [Expr.written, Expr.meets, Expr.writtenAll_cons, scan_append,
      ih e (by simp) inside state (paths e (by simp)).2 fresh, Expr.allMeet_eq, List.all_cons]
    refine scan_flatMap _ (fun g hg => ?_) _
    have bar : (((word.next ' ').next '|').next ' ') = ready := rfl
    rw [scan_cons, scan_cons, scan_cons, bar]
    have hg := List.mem_cons_of_mem e hg
    exact ih g hg inside ready (paths g hg).2 fresh_ready
  step axis test predicates ih := by
    intro inside state well fresh
    have parts := (Step.meets_mk .. |>.mp well).2
    rw [Step.written, Step.meets, Predicate.writtenAll_eq, Predicate.allMeet_eq, scan_append,
      scan_append, scan_axis fresh (.full axis : AxisText _ [] axis),
      scan_test fresh_word (testText_written well)]
    refine scan_flatMap _ (fun p hp => ?_) true
    rw [scan_cons, scan_append, ih p hp inside (word.next '[') (parts p hp) fresh_ready]
    cases p.meets withoutEither inside <;> rfl
  attributes name value := by
    intro inside state well fresh
    rw [Predicate.meets_attribute, wellFormed, Bool.and_eq_true] at well
    exact scan_attribute fresh (attributeText_written well.1 well.2)
  position number := by
    intro inside state well fresh
    have below : number < 0x10000000000000000 := by simpa [wellFormed] using well
    exact partsInduction_scan.position number _ state fresh (digits_written below)
  nested e ih := by
    intro inside state well fresh
    exact ih true state (Predicate.meets_nested .. |>.mp well).2 fresh
  function name := by
    intro inside state well fresh
    exact scan_function fresh (functionText_written well)
  either p q ihp _ := by
    intro inside state well fresh
    obtain ⟨-, hp, -⟩ := Predicate.meets_either .. |>.mp well
    -- the word `or` stands behind a space that no bracket, bar or equals sign accounts for
    have gap : ∀ ought, scan (verdict ought) [' ', 'o', 'r', ' '] = torn := by
      intro ought
      cases ought <;> rfl
    rw [Predicate.written, scan_append, scan_append, ihp inside state hp fresh, gap, scan_torn]
    rfl

theorem Ends.flatMap {α : Type} {f : α → List Char} {as : List α} (h : ∀ a ∈ as, Ends (f a))
    {t : List Char} (ht : Ends t) : Ends (t ++ as.flatMap f) := by
  induction as generalizing t with
  | nil => simpa using ht
  | cons a as ih =>
    rw [List.flatMap_cons, ← List.append_assoc]
    exact ih (fun b hb => h b (List.mem_cons_of_mem a hb)) ((h a (by simp)).prepend t)

theorem ends_stepWritten {inside : Bool} {s : Step} (h : s.meets wellFormed inside) :
    Ends s.written := by
  obtain ⟨axis, test, ps⟩ := s
  rw [Step.written, Predicate.writtenAll_eq]
  refine .flatMap (fun p _ => ?_) ((testText_written h).part.ends.prepend _)
  exact ⟨'[' :: p.written, ']', rfl, by simp⟩

theorem opens_ends_pathWritten {inside absolute : Bool} {steps : List Step}
    (h : (Expr.path absolute steps).meets wellFormed inside) :
    Opens (Expr.path absolute steps).written ∧ Ends (Expr.path absolute steps).written := by
  obtain ⟨s, ss, rfl, parts⟩ := steps_nonempty h
  rw [Expr.written, Step.writtenAll_cons]
  constructor
  · obtain ⟨c, u, eq, axisChar⟩ := stepWritten_cons s
    have opens : Opens s.written := ⟨c, u, eq, .inl (isAxisChar_isNameChar axisChar)⟩
    cases absolute with
    | false => exact opens.append _
    | true => exact ⟨'/', _, rfl, by simp⟩
  · apply Ends.prepend
    refine .flatMap (fun t ht => ?_) (ends_stepWritten (parts s (by simp)))
    exact (ends_stepWritten (parts t (by simp [ht]))).prepend ['/']

theorem opens_ends_written {inside : Bool} {e : Expr} (h : e.meets wellFormed inside) :
    Opens e.written ∧ Ends e.written := by
  cases e with
  | path absolute steps => exact opens_ends_pathWritten h
  | union branches =>
    obtain ⟨e, f, es, rfl, paths⟩ := branches_paths h
    have ends : ∀ b ∈ e :: f :: es, Opens b.written ∧ Ends b.written := by
      intro b hb
      obtain ⟨notUnion, parts⟩ := paths b hb
      obtain ⟨absolute, steps, rfl⟩ := path_of_not_union notUnion
      exact opens_ends_pathWritten parts
    rw [Expr.written, Expr.writtenAll_cons]
    obtain ⟨opens, ends_e⟩ := ends e (by simp)
    refine ⟨opens.append _, .flatMap (fun b hb => ?_) ends_e⟩
    exact (ends b (List.mem_cons_of_mem e hb)).2.prepend [' ', '|', ' ']

theorem trim_written {inside : Bool} {e : Expr} (h : e.meets wellFormed inside) :
    trim e.written = e.written := by
  obtain ⟨opens, ends⟩ := opens_ends_written h
  exact trim_eq_self opens ends

theorem toList_toString (e : Expr) : (toString e).toList = e.written := String.toList_ofList

/-- A well-formed expression without disjunctions is read back as it was written. -/
theorem parse_toString {e : Expr} {inside : Bool} (well : e.meets wellFormed inside)
    (without : e.meets withoutEither inside) : Expr.parse (toString e) = .ok e := by
  rw [parse_eq_ok_iff, toList_toString, trim_written well]
  exact exprText_written well without

/-- No expression is read from the written form of a disjunction, be it at any depth. -/
theorem parse_toString_either {e : Expr} {inside : Bool} (well : e.meets wellFormed inside)
    (either : ¬ e.meets withoutEither inside) (f : Expr) : Expr.parse (toString e) ≠ .ok f := by
  intro read
  rw [parse_eq_ok_iff, toList_toString, trim_written well] at read
  have sound := partsInduction_scan.expr f _ ready fresh_ready read
  rw [partsInduction_verdict.expr e inside ready well fresh_ready, verdict, if_neg either] at sound
  cases sound

/-- Writing and reading agree: what is read is well-formed and holds no disjunction, every such
expression is read back from its written form, and with a disjunction in it the written form is an
error. -/
theorem parse_toString_faithful :
    (∀ text e, Expr.parse text = .ok e →
      e.meets wellFormed false ∧ e.meets withoutEither false) ∧
    (∀ e : Expr, e.meets wellFormed false → e.meets withoutEither false →
      Expr.parse (toString e) = .ok e) ∧
    (∀ e : Expr, e.meets wellFormed false → ¬ e.meets withoutEither false →
      ∃ error, Expr.parse (toString e) = .error error) := by
  refine ⟨fun text e read => ?_, fun e well without => parse_toString well without, ?_⟩
  · exact ((parse_eq_ok_iff text e).mp read).meets false
  · intro e well either
    cases read : Expr.parse (toString e) with
    | error error => exact ⟨error, rfl⟩
    | ok f => exact absurd read (parse_toString_either well either f)

theorem parse_toString_faithful_nested :
    let e : Expr := .path true [.mk .child (.named "a.b") [.attribute "k" "it's",
      .nested (.union [.path false [.mk .self .any [.position 3]],
        .path true [.mk .parent .any []]])]]
    let f : Expr := .path false [.mk .child .any
      [.nested (.path false [.mk .self .any [.either (.position 1) (.function "last")]])]]
    Expr.parse (toString e) = .ok e ∧ ∃ error, Expr.parse (toString f) = .error error :=
  ⟨parse_toString_faithful.2.1 _ (by decide) (by decide),
    parse_toString_faithful.2.2 _ (by decide) (by decide)⟩

end TreeQuery.Path
