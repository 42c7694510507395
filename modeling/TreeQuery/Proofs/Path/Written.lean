import TreeQuery.Proofs.Path.WellFormed

namespace TreeQuery

open TreeQuery.Path

theorem Step.writtenAll_cons (s : Step) (ss : List Step) :
    Step.writtenAll (s :: ss) = s.written ++ ss.flatMap fun t => '/' :: t.written := by
  induction ss generalizing s with
  | nil => simp [Step.writtenAll]
  | cons t ss ih => rw [Step.writtenAll, ih, List.flatMap_cons]; simp

theorem Expr.writtenAll_cons (e : Expr) (es : List Expr) :
    Expr.writtenAll (e :: es) =
      e.written ++ es.flatMap fun f => ' ' :: '|' :: ' ' :: f.written := by
  induction es generalizing e with
  | nil => simp [Expr.writtenAll]
  | cons f es ih => rw [Expr.writtenAll, ih, List.flatMap_cons]; simp

theorem Predicate.writtenAll_eq (ps : List Predicate) :
    Predicate.writtenAll ps = ps.flatMap fun p => '[' :: (p.written ++ [']']) := by
  induction ps with
  | nil => rfl
  | cons p ps ih => rw [Predicate.writtenAll, ih, List.flatMap_cons]; simp

namespace Path

theorem Repeated.flatMap {α : Type} {Item : List Char → α → Prop} {f : α → List Char} {as : List α}
    (h : ∀ a ∈ as, Item (f a) a) : Repeated Item (as.flatMap f) as := by
  induction as with
  | nil => exact .nil
  | cons a as ih =>
    rw [List.flatMap_cons]
    exact .cons (h a (by simp)) (ih fun b hb => h b (by simp [hb]))

/-- What a well-formed path is made of. -/
theorem steps_nonempty {inside absolute : Bool} {steps : List Step}
    (h : (Expr.path absolute steps).meets wellFormed inside) :
    ∃ s ss, steps = s :: ss ∧ ∀ t ∈ steps, t.meets wellFormed inside := by
  obtain ⟨nonempty, parts⟩ := Expr.meets_path .. |>.mp h
  cases steps with
  | nil => simp [wellFormed] at nonempty
  | cons s ss => exact ⟨s, ss, rfl, parts⟩

/-- What a well-formed union is made of. -/
theorem branches_paths {inside : Bool} {branches : List Expr}
    (h : (Expr.union branches).meets wellFormed inside) :
    ∃ e f es, branches = e :: f :: es ∧
      ∀ b ∈ branches, b.isUnion = false ∧ b.meets wellFormed inside := by
  obtain ⟨shape, parts⟩ := Expr.meets_union .. |>.mp h
  simp only [wellFormed, Bool.and_eq_true, decide_eq_true_eq, List.all_eq_true,
    Bool.not_eq_true'] at shape
  obtain ⟨two, paths⟩ := shape
  obtain ⟨e, rest, rfl⟩ := List.exists_cons_of_length_pos (Nat.lt_of_lt_of_le Nat.zero_lt_two two)
  obtain ⟨f, es, rfl⟩ := List.exists_cons_of_length_pos (Nat.lt_of_succ_lt_succ two)
  exact ⟨e, f, es, rfl, fun b hb => ⟨paths b hb, parts b hb⟩⟩

theorem path_of_not_union {e : Expr} (h : e.isUnion = false) :
    ∃ absolute steps, e = .path absolute steps := by
  cases e with
  | path absolute steps => exact ⟨absolute, steps, rfl⟩
  | union => cases h

/-- An axis is written in full, so its name comes first. -/
theorem stepWritten_cons (s : Step) : ∃ c u, s.written = c :: u ∧ isAxisChar c := by
  obtain ⟨axis, test, ps⟩ := s
  have run := runOf_isAxisChar_name axis
  obtain ⟨c, u, eq⟩ := List.exists_cons_of_ne_nil run.1
  refine ⟨c, u ++ [':', ':'] ++ test.written ++ Predicate.writtenAll ps, ?_, ?_⟩
  · simp [Step.written, eq]
  · exact run.2 c (by simp [eq])

theorem colon_mem_written (s : Step) : ':' ∈ s.written := by
  obtain ⟨axis, test, ps⟩ := s
  simp [Step.written]

theorem colon_mem_pathWritten {inside absolute : Bool} {steps : List Step}
    (h : (Expr.path absolute steps).meets wellFormed inside) :
    ':' ∈ (Expr.path absolute steps).written := by
  obtain ⟨s, ss, rfl, -⟩ := steps_nonempty h
  rw [Expr.written, Step.writtenAll_cons]
  simp [colon_mem_written s]

/-- Colons are in the written form of every expression, so it is never a number. -/
theorem colon_mem_exprWritten {inside : Bool} {e : Expr} (h : e.meets wellFormed inside) :
    ':' ∈ e.written := by
  cases e with
  | path absolute steps => exact colon_mem_pathWritten h
  | union branches =>
    obtain ⟨e, f, es, rfl, paths⟩ := branches_paths h
    obtain ⟨notUnion, first⟩ := paths e (by simp)
    obtain ⟨absolute, steps, rfl⟩ := path_of_not_union notUnion
    rw [Expr.written, Expr.writtenAll_cons]
    exact List.mem_append_left _ (colon_mem_pathWritten first)

theorem testText_written {axis : Axis} {test : NodeTest} {ps : List Predicate} {inside : Bool}
    (h : (Step.mk axis test ps).meets wellFormed inside) : TestText test.written test := by
  obtain ⟨hasTest, -⟩ := Step.meets_mk .. |>.mp h
  cases test with
  | any => exact .any
  | named name =>
    have text := TestText.named (isName_iff.mp hasTest)
    rwa [String.ofList_toList] at text

theorem quotedText_written {value : String} (h : isValue value) :
    QuotedText (writtenValue value.toList) value.toList := by
  unfold writtenValue
  split
  · rename_i single
    rcases isValue_iff.mp h with free | free
    · exact absurd single free
    · exact .double free
  · rename_i free
    exact .single free

theorem attributeText_written {name value : String} (hn : isName name) (hv : isValue value) :
    AttributeText (Predicate.attribute name value).written (.attribute name value) := by
  have text := AttributeText.intro (a := []) (b := []) (isName_iff.mp hn) (by simp [Spaces])
    (by simp [Spaces]) (quotedText_written hv)
  rw [String.ofList_toList, String.ofList_toList] at text
  simpa [Predicate.written] using text

theorem functionText_written {name : String} (h : isFunctionName name) :
    FunctionText (Predicate.function name).written (.function name) := by
  obtain ⟨c, more, eq, start, others⟩ := isFunctionName_iff.mp h
  have text := FunctionText.intro start others
  rw [← eq, String.ofList_toList] at text
  exact text

theorem digits_written {number : Nat} (h : number < 0x10000000000000000) :
    BodyText (Predicate.position number).written (.position number) := by
  have run : RunOf Char.isDigit (Nat.toDigits 10 number) :=
    ⟨Nat.toDigits_ne_nil, fun c hc => Nat.isDigit_of_mem_toDigits (by decide) (by decide) hc⟩
  have value : Nat.ofDigitChars 10 (Nat.toDigits 10 number) 0 = number :=
    Nat.ofDigitChars_ten_toDigits
  have text := BodyText.ofDigits run (by rwa [value])
  rwa [value] at text

/-- Each part of a well-formed expression without disjunctions is written as the grammar has it. -/
theorem partsInduction_written :
    PartsInduction
      (fun e => ∀ inside, e.meets wellFormed inside → e.meets withoutEither inside →
        ExprText e.written e ∧ (e.isUnion = false → PathText e.written e))
      (fun s => ∀ inside, s.meets wellFormed inside → s.meets withoutEither inside →
        StepText s.written s)
      (fun p => ∀ inside, p.meets wellFormed inside → p.meets withoutEither inside →
        BodyText p.written p) where
  path absolute steps ih := by
    intro inside well without
    obtain ⟨s, ss, rfl, parts⟩ := steps_nonempty well
    have others := (Expr.meets_path .. |>.mp without).2
    have step : ∀ t ∈ s :: ss, StepText t.written t :=
      fun t ht => ih t ht inside (parts t ht) (others t ht)
    have steps : StepsText (Step.writtenAll (s :: ss)) (s :: ss) := by
      rw [Step.writtenAll_cons]
      exact .intro (step s (by simp)) (.flatMap fun t ht => .intro (step t (by simp [ht])))
    have path : PathText (Expr.path absolute (s :: ss)).written (.path absolute (s :: ss)) := by
      cases absolute with
      | true => exact .absolute steps
      | false =>
        refine .relative steps ?_
        obtain ⟨c, u, eq, axisChar⟩ := stepWritten_cons s
        intro slash
        obtain rfl : c = '/' := by simpa [Expr.written, Step.writtenAll_cons, eq] using slash
        exact absurd axisChar (by decide)
    exact ⟨.path path, fun _ => path⟩
  union branches ih := by
    intro inside well without
    obtain ⟨e, f, es, rfl, paths⟩ := branches_paths well
    have others := (Expr.meets_union .. |>.mp without).2
    have path : ∀ b ∈ e :: f :: es, PathText b.written b := by
      intro b hb
      obtain ⟨notUnion, parts⟩ := paths b hb
      exact (ih b hb inside parts (others b hb)).2 notUnion
    refine ⟨?_, fun notUnion => by cases notUnion⟩
    rw [Expr.written, Expr.writtenAll_cons]
    refine .union (path e (by simp)) (.flatMap fun b hb => ?_) (by simp)
    exact .intro (a := [' ']) (b := [' ']) (by simp [Spaces, isSpace]) (by simp [Spaces, isSpace])
      (path b (List.mem_cons_of_mem e hb))
  step axis test predicates ih := by
    intro inside well without
    have parts := (Step.meets_mk .. |>.mp well).2
    have others := (Step.meets_mk .. |>.mp without).2
    rw [Step.written, Predicate.writtenAll_eq, List.append_assoc]
    refine .full (.full axis) (testText_written well) (.flatMap fun p hp => ?_)
    exact .intro (a := []) (b := []) (by simp [Spaces]) (by simp [Spaces])
      (ih p hp inside (parts p hp) (others p hp))
  attributes name value := by
    intro inside well _
    rw [Predicate.meets_attribute, wellFormed, Bool.and_eq_true] at well
    exact .ofAttribute (attributeText_written well.1 well.2)
  position number := by
    intro inside well _
    exact digits_written (by simpa [wellFormed] using well)
  nested e ih := by
    intro inside well without
    have well := (Predicate.meets_nested .. |>.mp well).2
    have without := (Predicate.meets_nested .. |>.mp without).2
    exact .ofExpr (ih true well without).1 ⟨':', colon_mem_exprWritten well, by decide⟩
  function name := by
    intro inside well _
    exact .ofFunction (functionText_written well)
  either p q _ _ := by
    intro inside _ without
    simp [withoutEither] at without

/-- A well-formed expression without disjunctions stands in its own written form. -/
theorem exprText_written {e : Expr} {inside : Bool} (well : e.meets wellFormed inside)
    (without : e.meets withoutEither inside) : ExprText e.written e :=
  (partsInduction_written.expr e inside well without).1

end Path

end TreeQuery
