import TreeQuery.Proofs.Path.Written

namespace TreeQuery.Path

/-- What a scan has come to. -/
inductive Scan where
  /-- At the start, or behind something that spaces and words may follow. -/
  | ready
  | word
  /-- In the spaces behind a word. -/
  | gap
  | quoted (quote : Char)
  /-- Somewhere two words had only spaces between them. -/
  | torn
  deriving DecidableEq

namespace Scan

def isQuote (c : Char) : Bool := c = '\'' || c = '"'

/-- Spaces and a word may follow these. -/
def isOpener (c : Char) : Bool := c = '[' || c = '|' || c = '='

/-- What a character that is no space comes to. -/
def visible (c : Char) : Scan :=
  if isOpener c then ready else if isQuote c then quoted c else word

def next : Scan → Char → Scan
  | ready, c => if isSpace c then ready else visible c
  | word, c => if isSpace c then gap else visible c
  | gap, c =>
    if isSpace c then gap else if isOpener c || c = ']' then visible c else torn
  | quoted quote, c => if c = quote then word else quoted quote
  | torn, _ => torn

/-- Where an expression may start. -/
def Fresh (state : Scan) : Prop := state = ready ∨ state = word

end Scan

open Scan

def scan (state : Scan) (t : List Char) : Scan := t.foldl next state

@[simp] theorem scan_nil (state : Scan) : scan state [] = state := rfl

@[simp] theorem scan_cons (state : Scan) (c : Char) (t : List Char) :
    scan state (c :: t) = scan (state.next c) t := rfl

@[simp] theorem scan_append (state : Scan) (t u : List Char) :
    scan state (t ++ u) = scan (scan state t) u := List.foldl_append

@[simp] theorem scan_torn (t : List Char) : scan torn t = torn := by
  induction t with
  | nil => rfl
  | cons c t ih => exact ih

theorem fresh_ready : Fresh ready := .inl rfl

theorem fresh_word : Fresh word := .inr rfl

/-- The characters of words. -/
def isPlain (c : Char) : Bool := !isSpace c && !isOpener c && !isQuote c

theorem next_plain {state : Scan} (fresh : state.Fresh) {c : Char} (h : isPlain c) :
    state.next c = word := by
  simp only [isPlain, Bool.and_eq_true, Bool.not_eq_true'] at h
  obtain ⟨⟨space, opener⟩, quote⟩ := h
  rcases fresh with rfl | rfl
  · simp [next, visible, space, opener, quote]
  · simp [next, visible, space, opener, quote]

theorem scan_plain {state : Scan} (fresh : state.Fresh) {t : List Char} (h : RunOf isPlain t) :
    scan state t = word := by
  obtain ⟨nonempty, plain⟩ := h
  induction t generalizing state with
  | nil => exact absurd rfl nonempty
  | cons c t ih =>
    rw [scan_cons, next_plain fresh (plain c (by simp))]
    cases t with
    | nil => rfl
    | cons d t => exact ih fresh_word (by simp) fun e he => plain e (List.mem_cons_of_mem c he)

theorem isNameChar_isPlain {c : Char} (h : isNameChar c) : isPlain c := by
  have space : isSpace c = false := by
    apply Bool.eq_false_iff.mpr
    intro space
    exact isSpace_not_isNameChar space h
  have opener : isOpener c = false := by
    apply Bool.eq_false_iff.mpr
    intro opener
    simp only [isOpener, Bool.or_eq_true, decide_eq_true_eq] at opener
    rcases opener with (rfl | rfl) | rfl <;> exact absurd h (by decide)
  have quote : isQuote c = false := by
    apply Bool.eq_false_iff.mpr
    intro quote
    simp only [isQuote, Bool.or_eq_true, decide_eq_true_eq] at quote
    rcases quote with rfl | rfl <;> exact absurd h (by decide)
  simp [isPlain, space, opener, quote]

theorem RunOf.mono {p q : Char → Bool} (hpq : ∀ c, p c → q c) {t : List Char} (h : RunOf p t) :
    RunOf q t := ⟨h.1, fun c hc => hpq c (h.2 c hc)⟩

theorem RunOf.plain {t : List Char} (h : RunOf isNameChar t) : RunOf isPlain t :=
  h.mono fun _ => isNameChar_isPlain

theorem scan_spaces_ready {a : List Char} (h : Spaces a) : scan ready a = ready := by
  induction a with
  | nil => rfl
  | cons c a ih =>
    rw [scan_cons, next, if_pos (h c (by simp))]
    exact ih fun d hd => h d (List.mem_cons_of_mem c hd)

theorem scan_spaces_word {a : List Char} (h : Spaces a) :
    scan word a = word ∨ scan word a = gap := by
  cases a with
  | nil => exact .inl rfl
  | cons c a =>
    right
    rw [scan_cons, next, if_pos (h c (by simp))]
    have spaces : ∀ d ∈ a, isSpace d := fun d hd => h d (List.mem_cons_of_mem c hd)
    clear h
    induction a with
    | nil => rfl
    | cons d a ih =>
      rw [scan_cons, next, if_pos (spaces d (by simp))]
      exact ih fun e he => spaces e (List.mem_cons_of_mem d he)

/-- Spaces on both sides of a bar or an equals sign are no gap between words. -/
theorem scan_opener {a b : List Char} (ha : Spaces a) (hb : Spaces b) {c : Char} (hc : isOpener c)
    (space : isSpace c = false) : scan word (a ++ c :: b) = ready := by
  have open_c : (scan word a).next c = ready := by
    rcases scan_spaces_word ha with h | h
    · simp [h, next, visible, hc, space]
    · simp [h, next, visible, hc, space]
  rw [scan_append, scan_cons, open_c, scan_spaces_ready hb]

theorem scan_value {quote : Char} {v : List Char} (free : quote ∉ v) :
    scan (quoted quote) (v ++ [quote]) = word := by
  induction v with
  | nil => simp [next]
  | cons c v ih =>
    obtain ⟨other, free⟩ := not_or.mp (mt List.mem_cons.mpr free)
    rw [List.cons_append, scan_cons, next, if_neg (Ne.symm other)]
    exact ih free

theorem scan_quoted {q v : List Char} (h : QuotedText q v) : scan ready q = word := by
  cases h with
  | single free => exact scan_value free
  | double free => exact scan_value free

theorem scan_attribute {state : Scan} (fresh : state.Fresh) {t : List Char} {p : Predicate}
    (h : AttributeText t p) : scan state t = word := by
  obtain ⟨name, before, after, quoted⟩ := h
  have named := scan_plain fresh_word name.plain
  have equals := scan_opener before after (c := '=') rfl rfl
  rw [scan_append, scan_cons] at equals
  rw [scan_cons, next_plain fresh (by decide), scan_append, named, scan_append, scan_cons,
    scan_append, equals]
  exact scan_quoted quoted

theorem scan_function {state : Scan} (fresh : state.Fresh) {t : List Char} {p : Predicate}
    (h : FunctionText t p) : scan state t = word := by
  obtain ⟨start, more⟩ := h
  rename_i c t
  have name : RunOf isNameChar (c :: t) := by
    refine ⟨by simp, fun d hd => isFunctionChar_isNameChar ?_⟩
    rcases List.mem_cons.mp hd with rfl | hd
    · exact isFunctionStart_isFunctionChar start
    · exact more d hd
  rw [scan_cons, next_plain fresh (by decide)]
  exact scan_plain fresh_word name.plain

theorem scan_axis {state : Scan} (fresh : state.Fresh) {a behind : List Char} {axis : Axis}
    (h : AxisText a behind axis) : scan state a = word := by
  apply scan_plain fresh
  cases h with
  | slash => exact runOf_of_all (by decide) (by decide)
  | twoDots => exact runOf_of_all (by decide) (by decide)
  | oneDot => exact runOf_of_all (by decide) (by decide)
  | full =>
    have name := ((runOf_isAxisChar_name axis).mono fun _ => isAxisChar_isNameChar).plain
    refine ⟨by simp, fun c hc => ?_⟩
    rcases List.mem_append.mp hc with hc | hc
    · exact name.2 c hc
    · obtain rfl : c = ':' := by simpa using hc
      decide

theorem scan_test {state : Scan} (fresh : state.Fresh) {t : List Char} {test : NodeTest}
    (h : TestText t test) : scan state t = word := by
  apply scan_plain fresh
  cases h with
  | any => exact runOf_of_all (by decide) (by decide)
  | named run => exact run.plain

/-- A predicate starts and ends with its brackets, whatever the body may be. -/
theorem scan_predicate {p : Predicate} (body : ∀ t, BodyText t p → scan ready t = word)
    {t : List Char} (h : PredicateText t p) : scan word t = word := by
  obtain ⟨before, after, text⟩ := h
  have inner : scan (Scan.next word '[') _ = ready := scan_spaces_ready before
  rw [scan_cons, scan_append, inner, scan_append, body _ text, scan_append]
  rcases scan_spaces_word after with h | h
  · rw [h]; rfl
  · rw [h]; rfl

theorem Repeated.scan {α : Type} {Item : List Char → α → Prop} {u : List Char} {as : List α}
    (h : Repeated Item u as) (item : ∀ a ∈ as, ∀ t, Item t a → scan word t = word) :
    Path.scan word u = word := by
  induction h with
  | nil => rfl
  | cons first _ ih =>
    rw [scan_append, item _ (by simp) _ first]
    exact ih fun a ha => item a (List.mem_cons_of_mem _ ha)

/-- Nothing that has a text has two words in it with only spaces between them. -/
theorem partsInduction_scan :
    PartsInduction (fun e => ∀ t state, Fresh state → ExprText t e → scan state t = word)
      (fun s => ∀ t state, Fresh state → StepText t s → scan state t = word)
      (fun p => ∀ t state, Fresh state → BodyText t p → scan state t = word) where
  path absolute steps ih := by
    intro t state fresh text
    have all : ∀ u state, Fresh state → StepsText u steps → scan state u = word := by
      intro u state fresh text
      obtain ⟨first, more⟩ := text
      rw [scan_append, ih _ (by simp) _ state fresh first]
      refine more.scan fun s hs v next => ?_
      obtain ⟨step⟩ := next
      rw [scan_cons, next_plain fresh_word (by decide)]
      exact ih s (List.mem_cons_of_mem _ hs) _ word fresh_word step
    cases text with
    | path path =>
      cases path with
      | absolute steps =>
        rw [scan_cons, next_plain fresh (by decide)]
        exact all _ word fresh_word steps
      | relative steps => exact all _ state fresh steps
  union branches ih := by
    intro t state fresh text
    cases text with
    | path path => cases path
    | union first more _ =>
      rw [scan_append, ih _ (by simp) _ state fresh (.path first)]
      refine more.scan fun e he v next => ?_
      obtain ⟨before, after, path⟩ := next
      have bar := scan_opener before after (c := '|') rfl rfl
      rw [scan_append, scan_cons] at bar
      rw [scan_append, scan_cons, scan_append, bar]
      exact ih e (List.mem_cons_of_mem _ he) _ ready fresh_ready (.path path)
  step axis test predicates ih := by
    intro t state fresh text
    have all : ∀ u, Repeated PredicateText u predicates → scan word u = word := by
      intro u more
      exact more.scan fun p hp v text =>
        scan_predicate (fun w body => ih p hp w ready fresh_ready body) text
    cases text with
    | full hasAxis hasTest more =>
      rw [scan_append, scan_axis fresh hasAxis, scan_append, scan_test fresh_word hasTest]
      exact all _ more
    | axisOnly hasAxis _ more =>
      rw [scan_append, scan_axis fresh hasAxis]
      exact all _ more
    | testOnly _ hasTest more =>
      rw [scan_append, scan_test fresh hasTest]
      exact all _ more
  attributes name value := by
    intro t state fresh body
    cases body with
    | ofAttribute text => exact scan_attribute fresh text
    | ofFunction text => cases text
  position number := by
    intro t state fresh body
    cases body with
    | ofAttribute text => cases text
    | ofFunction text => cases text
    | ofDigits run => exact scan_plain fresh (run.mono fun _ => isDigit_isNameChar).plain
  nested e ih := by
    intro t state fresh body
    cases body with
    | ofAttribute text => cases text
    | ofFunction text => cases text
    | ofExpr text => exact ih t state fresh text
  function name := by
    intro t state fresh body
    cases body with
    | ofAttribute text => cases text
    | ofFunction text => exact scan_function fresh text
  either p q _ _ := by
    intro t state fresh body
    cases body with
    | ofAttribute text => cases text
    | ofFunction text => cases text

end TreeQuery.Path
