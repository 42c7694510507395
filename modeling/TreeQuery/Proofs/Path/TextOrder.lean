import Mathlib.Data.List.Forall2
import TreeQuery.Proofs.Path.Offsets
import TreeQuery.Proofs.Path.Places
import TreeQuery.Proofs.Path.WellFormed

namespace TreeQuery.Path

open TreeQuery.Text

/-- The places of a text that lie outside quotes, each as the text from there on. A quote lasts until
the same kind of quote follows. -/
def outside : (quote : Option Char) → List Char → List (List Char)
  | _, [] => []
  | some quote, c :: s => outside (if c = quote then none else some quote) s
  | none, c :: s => (c :: s) :: outside (if c = '\'' || c = '"' then some c else none) s

/-- The text from each bracket on that opens outside quotes. -/
def openings (s : List Char) : List (List Char) := (outside none s).filter (·.head? = some '[')

/-- The name behind the question mark that the text starts with. -/
def calledName? : List Char → Option String
  | '?' :: s => some (String.ofList (s.takeWhile isFunctionChar))
  | _ => none

/-- The names behind the question marks outside quotes, each time they occur. -/
def calledNames (s : List Char) : List String := (outside none s).filterMap calledName?

/-- The predicate is read off the front of the text, whatever bound the reader is given. -/
def ReadAt (p : Predicate) (s : List Char) : Prop :=
  ∀ (bound : Nat) (h : s.length ≤ bound),
    ∃ rest, (readPredicate (fun t _ => readExpr t) s h).Takes p rest

/-- The names of the functions among the predicates. -/
def named (ps : List Predicate) : List String := ps.filterMap Predicate.functionName?

theorem named_append (ps qs : List Predicate) : named (ps ++ qs) = named ps ++ named qs :=
  List.filterMap_append

/-- Up to `rest` the scan of `s` comes upon the brackets of these predicates and upon these names. -/
structure Tells (s rest : List Char) (ps : List Predicate) (names : List String) : Prop where
  brackets : ∃ found, openings s = found ++ openings rest ∧ List.Forall₂ ReadAt ps found
  names : calledNames s = names ++ calledNames rest

namespace Tells

variable {s middle rest : List Char} {ps qs : List Predicate} {names others : List String}

theorem refl (s : List Char) : Tells s s [] [] := ⟨⟨[], rfl, .nil⟩, rfl⟩

theorem trans (first : Tells s middle ps names) (second : Tells middle rest qs others) :
    Tells s rest (ps ++ qs) (names ++ others) := by
  obtain ⟨⟨found, brackets, reads⟩, called⟩ := first
  obtain ⟨⟨more, brackets', reads'⟩, called'⟩ := second
  constructor
  · refine ⟨found ++ more, ?_, List.rel_append reads reads'⟩
    rw [brackets, brackets', List.append_assoc]
  · rw [called, called', List.append_assoc]

/-- A part in front that tells nothing changes nothing. -/
theorem behind (first : Tells s middle [] []) (second : Tells middle rest ps names) :
    Tells s rest ps names := first.trans second

/-- Nor does one at the end. -/
theorem before (first : Tells s middle ps names) (second : Tells middle rest [] []) :
    Tells s rest ps names := by
  simpa using first.trans second

end Tells

/-- The characters that the scan heeds. -/
def marks : List Char := ['\'', '"', '[', '?']

variable {t rest : List Char}

theorem tells_cons {c : Char} (free : c ∉ marks) (rest : List Char) : Tells (c :: rest) rest [] [] := by
  simp only [marks, List.mem_cons, List.not_mem_nil, or_false, not_or] at free
  obtain ⟨single, double, bracket, question⟩ := free
  have places : outside none (c :: rest) = (c :: rest) :: outside none rest := by
    simp [outside, single, double]
  constructor
  · exact ⟨[], by simp [openings, places, bracket], .nil⟩
  · simp [calledNames, places, calledName?, question]

/-- A run of characters none of which is heeded. -/
theorem tells_run {p : Char → Bool} (h : ∀ c ∈ t, p c) (free : marks.any p = false)
    (rest : List Char) : Tells (t ++ rest) rest [] [] := by
  induction t with
  | nil => exact .refl rest
  | cons c t ih =>
    have unheeded : c ∉ marks := fun heeded =>
      List.any_eq_false.mp free c heeded (h c (by simp))
    exact (tells_cons unheeded _).behind (ih fun d hd => h d (List.mem_cons_of_mem c hd))

theorem Spaces.tells (h : Spaces t) (rest : List Char) : Tells (t ++ rest) rest [] [] :=
  tells_run h rfl rest

theorem RunOf.tells (h : RunOf isNameChar t) (rest : List Char) : Tells (t ++ rest) rest [] [] :=
  tells_run h.2 rfl rest

theorem outside_some {quote : Char} {v : List Char} (free : quote ∉ v) (rest : List Char) :
    outside (some quote) (v ++ quote :: rest) = outside none rest := by
  induction v with
  | nil => simp [outside]
  | cons c v ih =>
    obtain ⟨other, free⟩ := not_or.mp (mt List.mem_cons.mpr free)
    rw [List.cons_append, outside, if_neg (Ne.symm other)]
    exact ih free

/-- Between quotes nothing is heeded. -/
theorem QuotedText.tells {v : List Char} (h : QuotedText t v) (rest : List Char) :
    Tells (t ++ rest) rest [] [] := by
  cases h with
  | single free =>
    constructor
    · exact ⟨[], by simp [openings, outside, outside_some free], .nil⟩
    · simp [calledNames, calledName?, outside, outside_some free]
  | double free =>
    constructor
    · exact ⟨[], by simp [openings, outside, outside_some free], .nil⟩
    · simp [calledNames, calledName?, outside, outside_some free]

theorem AxisText.tells {behind : List Char} {axis : Axis} (h : AxisText t behind axis)
    (rest : List Char) : Tells (t ++ rest) rest [] [] := by
  cases h with
  | slash => exact tells_cons (by decide) rest
  | twoDots => exact (tells_cons (by decide) _).behind (tells_cons (by decide) rest)
  | oneDot => exact tells_cons (by decide) rest
  | full =>
    rw [List.append_assoc]
    have name := tells_run (runOf_isAxisChar_name axis).2 rfl (':' :: ':' :: rest)
    exact name.behind ((tells_cons (by decide) _).behind (tells_cons (by decide) rest))

theorem TestText.tells {test : NodeTest} (h : TestText t test) (rest : List Char) :
    Tells (t ++ rest) rest [] [] := by
  cases h with
  | any => exact tells_cons (by decide) rest
  | named run => exact run.tells rest

theorem AttributeText.tells {p : Predicate} (h : AttributeText t p) (rest : List Char) :
    Tells (t ++ rest) rest [] [] := by
  obtain ⟨name, before, after, quoted⟩ := h
  simp only [List.cons_append, List.append_assoc]
  apply (tells_cons (by decide) _).behind
  apply (name.tells _).behind
  apply (before.tells _).behind
  apply (tells_cons (by decide) _).behind
  exact (after.tells _).behind (quoted.tells rest)

/-- The name ends where it does because a bracket closes behind it. -/
theorem FunctionText.tells {p : Predicate} (h : FunctionText t p)
    (closed : (skipSpaces rest).head? = some ']') :
    Tells (t ++ rest) rest [] (named [p]) := by
  obtain ⟨start, more⟩ := h
  rename_i c t
  have name : ∀ d ∈ c :: t, isFunctionChar d := by
    intro d hd
    rcases List.mem_cons.mp hd with rfl | hd
    · exact isFunctionStart_isFunctionChar start
    · exact more d hd
  have stops : Stops isFunctionChar rest :=
    stops_of_closed (fun _ => isFunctionChar_isNameChar) closed
  have ends : (c :: t ++ rest).takeWhile isFunctionChar = c :: t :=
    (takeWhile_append_stops name stops).1
  have question : Tells ('?' :: (c :: t ++ rest)) (c :: t ++ rest) []
      [String.ofList (c :: t)] := by
    constructor
    · exact ⟨[], by simp [openings, outside], .nil⟩
    · simp only [calledNames, outside, List.filterMap_cons, calledName?, ends]
      rfl
  exact question.before (tells_run name rfl rest)

theorem withInner_eq_cons (p : Predicate) : Expr.withInner p = p :: (Expr.withInner p).tail := by
  cases p <;> rfl

theorem readAt_of_text {p : Predicate} (text : PredicateText t p) (rest : List Char) :
    ReadAt p (t ++ rest) := by
  intro bound h
  have complete : NestedReader.Complete fun u (_ : u.length < bound) => readExpr u :=
    fun _ _ _ _ _ text exprEnd hs => readExpr_complete text exprEnd hs
  exact ⟨rest, readPredicate_complete complete t p rest _ h text rfl⟩

/-- Whatever follows, the text tells of these predicates and of the functions among them. -/
def TellsAll (t : List Char) (ps : List Predicate) : Prop :=
  ∀ rest, Tells (t ++ rest) rest ps (named ps)

/-- Its own bracket is told of first. -/
theorem PredicateText.tells {p : Predicate}
    (body : ∀ t rest, BodyText t p → (skipSpaces rest).head? = some ']' →
      Tells (t ++ rest) rest (Expr.withInner p).tail (named (Expr.withInner p)))
    (h : PredicateText t p) : TellsAll t (Expr.withInner p) := by
  intro rest
  have here := readAt_of_text h rest
  obtain ⟨before, after, text⟩ := h
  rename_i a b t
  simp only [List.cons_append, List.append_assoc, List.nil_append] at here ⊢
  have closed : (skipSpaces (b ++ ']' :: rest)).head? = some ']' := by
    rw [skipSpaces_append after, skipSpaces_of_stops (by simp [isSpace])]
    rfl
  have bracket : Tells ('[' :: (a ++ (t ++ (b ++ ']' :: rest)))) (a ++ (t ++ (b ++ ']' :: rest)))
      [p] [] := by
    constructor
    · exact ⟨[_], by simp [openings, outside], .cons here .nil⟩
    · simp [calledNames, calledName?, outside]
  have inner := (body t _ text closed).before ((after.tells _).behind (tells_cons (by decide) rest))
  have whole := bracket.trans ((before.tells _).behind inner)
  rwa [List.singleton_append, ← withInner_eq_cons, List.nil_append] at whole

theorem Repeated.tells {α : Type} {Item : List Char → α → Prop} {as : List α}
    (h : Repeated Item t as) (inside : α → List Predicate)
    (item : ∀ a ∈ as, ∀ t, Item t a → TellsAll t (inside a)) : TellsAll t (as.flatMap inside) := by
  intro rest
  induction h with
  | nil => exact .refl rest
  | cons first _ ih =>
    have front := item _ (by simp) _ first
    have others := ih fun a ha => item a (List.mem_cons_of_mem _ ha)
    rw [List.append_assoc, List.flatMap_cons, named_append]
    exact (front _).trans others

/-- Every part tells of its predicates in the order in which they are listed. -/
theorem partsInduction_tells :
    PartsInduction (fun e => ∀ t, ExprText t e → TellsAll t e.predicates)
      (fun s => ∀ t, StepText t s → TellsAll t (Expr.stepPredicates s))
      (fun p => ∀ t rest, BodyText t p → (skipSpaces rest).head? = some ']' →
        Tells (t ++ rest) rest (Expr.withInner p).tail (named (Expr.withInner p))) where
  path absolute steps ih := by
    intro t text
    rw [Expr.predicates, Expr.stepsPredicates_eq]
    have all : ∀ u, StepsText u steps → TellsAll u (steps.flatMap Expr.stepPredicates) := by
      intro u text rest
      obtain ⟨first, more⟩ := text
      have others := more.tells Expr.stepPredicates fun s hs v next rest => by
        obtain ⟨step⟩ := next
        exact (tells_cons (by decide) _).behind (ih s (List.mem_cons_of_mem _ hs) _ step rest)
      rw [List.append_assoc, List.flatMap_cons, named_append]
      exact (ih _ (by simp) _ first _).trans (others rest)
    cases text with
    | path path =>
      cases path with
      | absolute steps => exact fun rest => (tells_cons (by decide) _).behind (all _ steps rest)
      | relative steps => exact all _ steps
  union branches ih := by
    intro t text rest
    rw [Expr.predicates, Expr.branchesPredicates_eq]
    cases text with
    | path path => cases path
    | union first more _ =>
      have others := more.tells Expr.predicates fun e he v next rest => by
        obtain ⟨before, after, path⟩ := next
        simp only [List.cons_append, List.append_assoc]
        apply (before.tells _).behind
        apply (tells_cons (by decide) _).behind
        exact (after.tells _).behind (ih e (List.mem_cons_of_mem _ he) _ (.path path) rest)
      rw [List.append_assoc, List.flatMap_cons, named_append]
      exact (ih _ (by simp) _ (.path first) _).trans (others rest)
  step axis test predicates ih := by
    intro t text rest
    rw [Expr.stepPredicates, Expr.listPredicates_eq]
    have all : ∀ u, Repeated PredicateText u predicates →
        TellsAll u (predicates.flatMap Expr.withInner) :=
      fun u more => more.tells Expr.withInner fun p hp v text => text.tells (ih p hp)
    cases text with
    | full hasAxis hasTest more =>
      simp only [List.append_assoc]
      exact (hasAxis.tells _).behind ((hasTest.tells _).behind (all _ more rest))
    | axisOnly hasAxis _ more =>
      rw [List.append_assoc]
      exact (hasAxis.tells _).behind (all _ more rest)
    | testOnly _ hasTest more =>
      rw [List.append_assoc]
      exact (hasTest.tells _).behind (all _ more rest)
  attributes name value := by
    intro t rest body closed
    cases body with
    | ofAttribute text => exact text.tells rest
    | ofFunction text => cases text
  position number := by
    intro t rest body closed
    cases body with
    | ofAttribute text => cases text
    | ofFunction text => cases text
    | ofDigits run => exact tells_run run.2 rfl rest
  nested e ih := by
    intro t rest body closed
    cases body with
    | ofAttribute text => cases text
    | ofFunction text => cases text
    | ofExpr text => exact ih t text rest
  function name := by
    intro t rest body closed
    cases body with
    | ofAttribute text => cases text
    | ofFunction text => exact text.tells closed
  either p q _ _ := by
    intro t rest body closed
    cases body with
    | ofAttribute text => cases text
    | ofFunction text => cases text

theorem foldl_addName_eq_eraseDups (names : List String) :
    names.foldl Expr.addName [] = names.eraseDups := by
  induction names using List.reverseRecOn with
  | nil => rfl
  | append_singleton names last ih =>
    rw [List.foldl_append, ih, List.eraseDups_append]
    by_cases known : last ∈ names
    · simp [Expr.addName, List.removeAll, known]
    · simp [Expr.addName, List.removeAll, known, List.eraseDups_cons]

theorem exists_eq_trim (text : List Char) :
    ∃ front after, (∀ c ∈ front, isBlank c) ∧ (∀ c ∈ after, isBlank c) ∧
      text = front ++ (trim text ++ after) := by
  obtain ⟨after, blank, whole⟩ := exists_eq_trimEnd_append (trimStart text)
  refine ⟨text.takeWhile isBlank, after, fun _ => List.mem_takeWhile_imp, blank, ?_⟩
  rw [trim, ← whole, trimStart, List.takeWhile_append_dropWhile]

/-- What is told of an accepted text is what the expression lists. -/
theorem tells_of_parse {text : String} {e : Expr} (parsed : Expr.parse text = .ok e) :
    Tells text.toList [] e.predicates (named e.predicates) := by
  obtain ⟨front, after, blankFront, blankAfter, whole⟩ := exists_eq_trim text.toList
  have inner := partsInduction_tells.expr e _ ((parse_eq_ok_iff text e).mp parsed) after
  have outer := tells_run blankAfter rfl []
  rw [List.append_nil] at outer
  rw [whole]
  exact (tells_run blankFront rfl _).behind (inner.before outer)

/-- The functions of an accepted text are those behind its question marks, each where it comes
first, and its predicates are those at its brackets, one for each. -/
theorem predicates_in_text_order (text : String) (e : Expr) (parsed : Expr.parse text = .ok e) :
    (calledNames text.toList).eraseDups = e.functionNames ∧
    (openings text.toList).length = e.predicates.length ∧
    List.Forall₂ ReadAt e.predicates (openings text.toList) := by
  obtain ⟨⟨found, brackets, reads⟩, names⟩ := tells_of_parse parsed
  obtain rfl : openings text.toList = found := by simpa [openings, outside] using brackets
  have called : calledNames text.toList = named e.predicates := by
    simpa [calledNames, outside] using names
  refine ⟨?_, reads.length_eq.symm, reads⟩
  rw [called, ← foldl_addName_eq_eraseDups]
  rfl

theorem predicates_in_text_order_quoted :
    let text := " a[@t='?x['][?f][b[?g][?f]] | c[ ?h] "
    let inner := Expr.path false [.mk .child (.named "b") [.function "g", .function "f"]]
    let e := Expr.union [
      .path false [.mk .child (.named "a") [.attribute "t" "?x[", .function "f", .nested inner]],
      .path false [.mk .child (.named "c") [.function "h"]]]
    Expr.parse text = .ok e ∧ (calledNames text.toList).eraseDups = ["f", "g", "h"] ∧
      (openings text.toList).length = 6 ∧ List.Forall₂ ReadAt e.predicates (openings text.toList) := by
  intro text inner e
  have parsed : Expr.parse text = .ok e := by decide +kernel
  obtain ⟨names, count, reads⟩ := predicates_in_text_order text e parsed
  exact ⟨parsed, names.trans (by decide), count.trans (by decide), reads⟩

end TreeQuery.Path
