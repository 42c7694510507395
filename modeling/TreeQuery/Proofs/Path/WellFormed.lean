import TreeQuery.Path.Printer
import TreeQuery.Proofs.Path.Completeness
import TreeQuery.Proofs.Path.Parts

namespace TreeQuery.Path

def isName (name : String) : Bool := !name.toList.isEmpty && name.toList.all isNameChar

def isFunctionName (name : String) : Bool :=
  match name.toList with
  | [] => false
  | c :: more => isFunctionStart c && more.all isFunctionChar

/-- A value with quotes of both kinds cannot be written. -/
def isValue (value : String) : Bool := !('\'' ∈ value.toList && '"' ∈ value.toList)

/-- What an expression must be like to be written, as far as its own parts go. -/
def wellFormed : Criteria where
  expr
    | .path _ steps => !steps.isEmpty
    | .union branches => 2 ≤ branches.length && branches.all fun e => !e.isUnion
  step _ s :=
    match s.test with
    | .any => true
    | .named name => isName name
  predicate
    | .attribute name value => isName name && isValue value
    | .position number => number < 0x10000000000000000
    | .function name => isFunctionName name
    | .nested _ | .either .. => true

def withoutEither : Criteria where
  predicate
    | .either .. => false
    | _ => true

theorem isName_iff {name : String} : isName name ↔ RunOf isNameChar name.toList := by
  simp [isName, RunOf]

theorem isValue_iff {value : String} :
    isValue value ↔ '\'' ∉ value.toList ∨ '"' ∉ value.toList := by
  rw [isValue, Bool.not_eq_true', Bool.and_eq_false_iff, decide_eq_false_iff_not,
    decide_eq_false_iff_not]

theorem isFunctionName_iff {name : String} :
    isFunctionName name ↔
      ∃ c more, name.toList = c :: more ∧ isFunctionStart c ∧ ∀ d ∈ more, isFunctionChar d := by
  unfold isFunctionName
  cases name.toList with
  | nil => simp
  | cons c more =>
    rw [Bool.and_eq_true, List.all_eq_true]
    constructor
    · intro h
      exact ⟨c, more, rfl, h⟩
    · intro h
      obtain ⟨_, _, ⟨rfl, rfl⟩, h⟩ := h
      exact h

theorem Repeated.exists_text {α : Type} {Item : List Char → α → Prop} {t : List Char} {as : List α}
    (h : Repeated Item t as) : ∀ a ∈ as, ∃ u, Item u a := by
  induction h with
  | nil => simp
  | cons first _ ih =>
    intro a ha
    rcases List.mem_cons.mp ha with rfl | ha
    · exact ⟨_, first⟩
    · exact ih a ha

theorem StepsText.exists_text {t : List Char} {ss : List Step} (h : StepsText t ss) :
    ∀ s ∈ ss, ∃ u, StepText u s := by
  obtain ⟨first, more⟩ := h
  intro s hs
  rcases List.mem_cons.mp hs with rfl | hs
  · exact ⟨_, first⟩
  · obtain ⟨_, ⟨text⟩⟩ := more.exists_text s hs
    exact ⟨_, text⟩

theorem PathText.exists_text {t : List Char} {absolute : Bool} {ss : List Step}
    (h : PathText t (.path absolute ss)) : ∃ u, StepsText u ss := by
  cases h with
  | absolute steps => exact ⟨_, steps⟩
  | relative steps => exact ⟨_, steps⟩

theorem PathText.not_union {t : List Char} {e : Expr} (h : PathText t e) : e.isUnion = false := by
  cases h <;> rfl

theorem ExprText.branches {t : List Char} {es : List Expr} (h : ExprText t (.union es)) :
    2 ≤ es.length ∧ ∀ e ∈ es, ∃ u, PathText u e := by
  cases h with
  | path path => cases path
  | @union t u e es first more nonempty =>
    obtain ⟨f, fs, rfl⟩ := List.exists_cons_of_ne_nil nonempty
    refine ⟨by simp, fun g hg => ?_⟩
    rcases List.mem_cons.mp hg with rfl | hg
    · exact ⟨_, first⟩
    · obtain ⟨_, ⟨_, _, path⟩⟩ := more.exists_text g hg
      exact ⟨_, path⟩

theorem StepText.parts {t : List Char} {axis : Axis} {test : NodeTest} {ps : List Predicate}
    (h : StepText t (.mk axis test ps)) :
    (test = .any ∨ ∃ u, TestText u test) ∧ ∀ p ∈ ps, ∃ u, BodyText u p := by
  have bodies : ∀ {u}, Repeated PredicateText u ps → ∀ p ∈ ps, ∃ v, BodyText v p := by
    intro u predicates p hp
    obtain ⟨_, ⟨_, _, body⟩⟩ := predicates.exists_text p hp
    exact ⟨_, body⟩
  cases h with
  | full _ hasTest predicates => exact ⟨.inr ⟨_, hasTest⟩, bodies predicates⟩
  | axisOnly _ _ predicates => exact ⟨.inl rfl, bodies predicates⟩
  | testOnly _ hasTest predicates => exact ⟨.inr ⟨_, hasTest⟩, bodies predicates⟩

section

variable {c : Criteria} (expr : ∀ t e, ExprText t e → c.expr e)
  (step : ∀ t inside s, StepText t s → c.step inside s)
  (predicate : ∀ t p, BodyText t p → c.predicate p)

include expr step predicate

/-- The parts of what the grammar gives a text to have texts themselves. -/
theorem partsInduction_meets :
    PartsInduction (fun e => ∀ t inside, ExprText t e → e.meets c inside)
      (fun s => ∀ t inside, StepText t s → s.meets c inside)
      (fun p => ∀ t inside, BodyText t p → p.meets c inside) where
  path absolute steps ih := by
    intro t inside text
    rw [Expr.meets_path]
    refine ⟨expr t _ text, fun s hs => ?_⟩
    cases text with
    | path path =>
      obtain ⟨_, text⟩ := path.exists_text
      obtain ⟨u, text⟩ := text.exists_text s hs
      exact ih s hs u inside text
  union branches ih := by
    intro t inside text
    rw [Expr.meets_union]
    refine ⟨expr t _ text, fun e he => ?_⟩
    obtain ⟨u, path⟩ := text.branches.2 e he
    exact ih e he u inside (.path path)
  step axis test predicates ih := by
    intro t inside text
    rw [Step.meets_mk]
    refine ⟨step t inside _ text, fun p hp => ?_⟩
    obtain ⟨u, body⟩ := text.parts.2 p hp
    exact ih p hp u inside body
  attributes name value := fun t _ body => predicate t _ body
  position number := fun t _ body => predicate t _ body
  function name := fun t _ body => predicate t _ body
  nested e ih := by
    intro t inside body
    rw [Predicate.meets_nested]
    refine ⟨predicate t _ body, ?_⟩
    cases body with
    | ofAttribute text => cases text
    | ofFunction text => cases text
    | ofExpr text => exact ih t true text
  either p q _ _ := by
    intro t inside body
    cases body with
    | ofAttribute text => cases text
    | ofFunction text => cases text

end

theorem wellFormed_expr {t : List Char} {e : Expr} (h : ExprText t e) : wellFormed.expr e := by
  cases e with
  | path absolute steps =>
    cases h with
    | path path =>
      obtain ⟨_, text⟩ := path.exists_text
      obtain ⟨_, _⟩ := text
      rfl
  | union branches =>
    obtain ⟨two, paths⟩ := h.branches
    simp only [wellFormed, Bool.and_eq_true, decide_eq_true_eq, List.all_eq_true]
    refine ⟨two, fun e he => ?_⟩
    obtain ⟨_, path⟩ := paths e he
    rw [path.not_union]
    rfl

theorem wellFormed_step {t : List Char} {inside : Bool} {s : Step} (h : StepText t s) :
    wellFormed.step inside s := by
  obtain ⟨axis, test, ps⟩ := s
  obtain ⟨hasTest, -⟩ := h.parts
  rcases hasTest with rfl | ⟨u, hasTest⟩
  · rfl
  · cases hasTest with
    | any => rfl
    | named run => exact isName_iff.mpr (by rwa [String.toList_ofList])

theorem wellFormed_predicate {t : List Char} {p : Predicate} (h : BodyText t p) :
    wellFormed.predicate p := by
  cases h with
  | ofAttribute text =>
    obtain ⟨name, -, -, quoted⟩ := text
    simp only [wellFormed, Bool.and_eq_true, isName_iff, isValue_iff, String.toList_ofList]
    refine ⟨name, ?_⟩
    cases quoted with
    | single free => exact .inl free
    | double free => exact .inr free
  | ofFunction text =>
    obtain ⟨start, more⟩ := text
    exact isFunctionName_iff.mpr ⟨_, _, String.toList_ofList, start, more⟩
  | ofDigits run below => simpa [wellFormed] using below
  | ofExpr => rfl

theorem withoutEither_predicate {t : List Char} {p : Predicate} (h : BodyText t p) :
    withoutEither.predicate p := by
  cases h with
  | ofAttribute text => cases text; rfl
  | ofFunction text => cases text; rfl
  | ofDigits => rfl
  | ofExpr => rfl

/-- Whatever has a text is well-formed, and no disjunction stands anywhere in it. -/
theorem ExprText.meets {t : List Char} {e : Expr} (h : ExprText t e) (inside : Bool) :
    e.meets wellFormed inside ∧ e.meets withoutEither inside := by
  constructor
  · have parts := partsInduction_meets (fun _ _ => wellFormed_expr) (fun _ _ _ => wellFormed_step)
      (fun _ _ => wellFormed_predicate)
    exact parts.expr e t inside h
  · have parts := partsInduction_meets (c := withoutEither) (fun _ _ _ => rfl)
      (fun _ _ _ _ => rfl) (fun _ _ => withoutEither_predicate)
    exact parts.expr e t inside h

end TreeQuery.Path
