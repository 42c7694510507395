import TreeQuery.Proofs.Path.RoundTrip
import TreeQuery.Proofs.Query.Union

namespace TreeQuery

open TreeQuery.Path

namespace Expr

variable {first : Expr} {more es : List Expr}

/-- What stands between the bars of the written form. -/
def alternatives : Expr → List Expr
  | path absolute steps => [path absolute steps]
  | union branches => branches

/-- Unions that are branches give way to their own branches. -/
def flattened : Expr → Expr
  | path absolute steps => path absolute steps
  | union branches => union (branches.flatMap alternatives)

theorem alternatives_of_not_union {e : Expr} (h : e.isUnion = false) : e.alternatives = [e] := by
  obtain ⟨absolute, steps, rfl⟩ := path_of_not_union h
  rfl

theorem flatMap_alternatives_eq_self (paths : ∀ e ∈ es, e.isUnion = false) :
    es.flatMap alternatives = es := by
  induction es with
  | nil => rfl
  | cons e es ih =>
    rw [List.flatMap_cons, alternatives_of_not_union (paths e (by simp)),
      ih fun f hf => paths f (List.mem_cons_of_mem e hf), List.singleton_append]

theorem mapM_parse {texts : List String}
    (each : List.Forall₂ (fun text e => parse text = .ok e) texts es) :
    texts.mapM parse = .ok es := by
  induction each with
  | nil => rfl
  | cons read _ ih =>
    rw [List.mapM_cons, read, ih]
    rfl

theorem unionOf_eq_combine {texts : List String}
    (each : List.Forall₂ (fun text e => parse text = .ok e) texts (first :: more)) :
    unionOf texts = .ok (combine first more) := by
  rw [unionOf, mapM_parse each]
  cases more with
  | nil => rfl
  | cons => rfl

theorem meets_of_read {texts : List String}
    (each : List.Forall₂ (fun text e => parse text = .ok e) texts es) :
    ∀ e ∈ es, e.meets wellFormed false ∧ e.meets withoutEither false := by
  induction each with
  | nil => nofun
  | cons read _ ih => exact List.forall_mem_cons.mpr ⟨((parse_eq_ok_iff ..).mp read).meets false, ih⟩

theorem bar_writtenAll (nonempty : es ≠ []) :
    ' ' :: '|' :: ' ' :: writtenAll es = es.flatMap fun e => ' ' :: '|' :: ' ' :: e.written := by
  obtain ⟨e, es, rfl⟩ := List.exists_cons_of_ne_nil nonempty
  rw [writtenAll_cons, List.flatMap_cons]
  rfl

theorem writtenAll_alternatives (e : Expr) : writtenAll e.alternatives = e.written := by
  cases e with
  | path => rfl
  | union => rfl

theorem writtenAll_flatMap_alternatives (each : ∀ e ∈ es, e.alternatives ≠ []) :
    writtenAll (es.flatMap alternatives) = writtenAll es := by
  cases es with
  | nil => rfl
  | cons e more =>
    have nonempty : (e :: more).flatMap alternatives ≠ [] := by
      rw [List.flatMap_cons]
      exact List.append_ne_nil_of_left_ne_nil (each e (by simp)) _
    have barred : ∀ f ∈ e :: more,
        (f.alternatives.flatMap fun g => ' ' :: '|' :: ' ' :: g.written) =
          ' ' :: '|' :: ' ' :: f.written := by
      intro f hf
      rw [← bar_writtenAll (each f hf), writtenAll_alternatives]
    have same : ' ' :: '|' :: ' ' :: writtenAll ((e :: more).flatMap alternatives) =
        ' ' :: '|' :: ' ' :: writtenAll (e :: more) := by
      rw [bar_writtenAll nonempty, bar_writtenAll (List.cons_ne_nil e more), List.flatMap_assoc,
        List.flatMap_congr barred]
    simpa using same

section

variable {inside : Bool} (well : ∀ e ∈ es, e.meets wellFormed inside)

include well

theorem alternatives_wellFormed {e : Expr} (he : e ∈ es) :
    e.alternatives ≠ [] ∧
      ∀ f ∈ e.alternatives, f.isUnion = false ∧ f.meets wellFormed inside := by
  cases e with
  | path absolute steps =>
    refine ⟨List.cons_ne_nil _ _, fun f hf => ?_⟩
    obtain rfl := List.mem_singleton.mp hf
    exact ⟨rfl, well _ he⟩
  | union branches =>
    obtain ⟨f, g, more, rfl, paths⟩ := branches_paths (well _ he)
    exact ⟨List.cons_ne_nil _ _, paths⟩

theorem length_le_flatMap_alternatives : es.length ≤ (es.flatMap alternatives).length := by
  induction es with
  | nil => simp
  | cons e es ih =>
    have here := List.length_pos_of_ne_nil (alternatives_wellFormed well List.mem_cons_self).1
    have rest := ih fun f hf => well f (List.mem_cons_of_mem e hf)
    rw [List.flatMap_cons, List.length_append, List.length_cons]
    omega

theorem flatMap_alternatives_eq_self_iff :
    es.flatMap alternatives = es ↔ ∀ e ∈ es, e.isUnion = false := by
  refine ⟨fun same e he => ?_, flatMap_alternatives_eq_self⟩
  rw [← same] at he
  obtain ⟨f, hf, he⟩ := List.mem_flatMap.mp he
  exact ((alternatives_wellFormed well hf).2 e he).1

theorem wellFormed_flattened (two : 2 ≤ es.length) :
    (union es).flattened.meets wellFormed inside := by
  have parts : ∀ f ∈ es.flatMap alternatives, f.isUnion = false ∧ f.meets wellFormed inside := by
    intro f hf
    obtain ⟨e, he, hf⟩ := List.mem_flatMap.mp hf
    exact (alternatives_wellFormed well he).2 f hf
  have enough := two.trans (length_le_flatMap_alternatives well)
  rw [flattened, meets_union]
  refine ⟨?_, fun f hf => (parts f hf).2⟩
  simp only [wellFormed, Bool.and_eq_true, decide_eq_true_eq, List.all_eq_true, Bool.not_eq_true']
  exact ⟨enough, fun f hf => (parts f hf).1⟩

end

theorem flattened_of_wellFormed {e : Expr} {inside : Bool} (well : e.meets wellFormed inside) :
    e.flattened = e := by
  cases e with
  | path => rfl
  | union branches =>
    obtain ⟨_, _, _, -, paths⟩ := branches_paths well
    rw [flattened, flatMap_alternatives_eq_self fun f hf => (paths f hf).1]

theorem withoutEither_flattened {e : Expr} {inside : Bool} (h : e.meets withoutEither inside) :
    e.flattened.meets withoutEither inside := by
  cases e with
  | path => exact h
  | union branches =>
    have each := (meets_union .. |>.mp h).2
    rw [flattened, meets_union]
    refine ⟨rfl, fun f hf => ?_⟩
    obtain ⟨e, he, hf⟩ := List.mem_flatMap.mp hf
    cases e with
    | path absolute steps => exact List.mem_singleton.mp hf ▸ each _ he
    | union inner => exact (meets_union .. |>.mp (each _ he)).2 f hf

/-- What is joined from expressions that have texts is read back without unions of unions. -/
theorem parse_toString_combine {inside : Bool}
    (well : ∀ e ∈ first :: more, e.meets wellFormed inside)
    (without : ∀ e ∈ first :: more, e.meets withoutEither inside) :
    parse (toString (combine first more)) = .ok (combine first more).flattened := by
  cases more with
  | nil =>
    have here := well first List.mem_cons_self
    rw [combine, flattened_of_wellFormed here]
    exact parse_toString here (without first List.mem_cons_self)
  | cons second more =>
    let whole := union (first :: second :: more)
    have written : toString whole = toString whole.flattened := by
      have each := fun e he => (alternatives_wellFormed (e := e) well he).1
      exact congrArg String.ofList (writtenAll_flatMap_alternatives each).symm
    have either : whole.meets withoutEither inside := (meets_union ..).mpr ⟨rfl, without⟩
    change parse (toString whole) = .ok whole.flattened
    rw [written]
    exact parse_toString (wellFormed_flattened well (by simp)) (withoutEither_flattened either)

theorem flattened_combine_eq_self_iff {inside : Bool}
    (well : ∀ e ∈ first :: more, e.meets wellFormed inside) :
    (combine first more).flattened = combine first more ↔
      more = [] ∨ ∀ e ∈ first :: more, e.isUnion = false := by
  cases more with
  | nil => simp [combine, flattened_of_wellFormed (well first List.mem_cons_self)]
  | cons second more =>
    rw [or_iff_right (List.cons_ne_nil second more), ← flatMap_alternatives_eq_self_iff well]
    change union _ = union _ ↔ _
    rw [union.injEq]

section

variable (functions : Functions) (root start : Handle)

/-- The unions among the branches give way one after the other, from the left. -/
theorem evaluateWith_flatMap_alternatives (before es : List Expr) :
    ((union (before ++ es.flatMap alternatives)).evaluateWith functions root start).value =
      ((union (before ++ es)).evaluateWith functions root start).value := by
  induction es generalizing before with
  | nil => rfl
  | cons e es ih =>
    cases e with
    | path absolute steps => simpa [alternatives] using ih (before ++ [path absolute steps])
    | union inner =>
      have splice : Splices (union (before ++ union inner :: es)) (union (before ++ inner ++ es)) :=
        .intro before inner es
      rw [splice.agrees.evaluateWith splice.named]
      simpa [alternatives] using ih (before ++ inner)

theorem evaluateWith_flattened (e : Expr) :
    (e.flattened.evaluateWith functions root start).value =
      (e.evaluateWith functions root start).value := by
  cases e with
  | path => rfl
  | union branches => exact evaluateWith_flatMap_alternatives functions root start [] branches

end

end Expr

/-- Texts that can be read can be joined, and what comes of it has a text again. That is read as the
same expression just when a single text was given or no text is a union itself; otherwise the unions
among the branches are lost. The outcome is the same in any case. -/
theorem unionOf_read_back {texts : List String} {es : List Expr}
    (each : List.Forall₂ (fun text e => Expr.parse text = .ok e) texts es) (nonempty : texts ≠ []) :
    ∃ e, Expr.unionOf texts = .ok e ∧ Expr.parse (toString e) = .ok e.flattened ∧
      (Expr.parse (toString e) = .ok e ↔
        texts.length = 1 ∨ ∀ f ∈ es, f.isUnion = false) ∧
      ∀ registry root start,
        (e.flattened.evaluateFrom registry root start).value =
          (e.evaluateFrom registry root start).value := by
  obtain ⟨first, more, rfl⟩ : ∃ first more, es = first :: more := by
    apply List.exists_cons_of_ne_nil
    rintro rfl
    exact nonempty (List.forall₂_nil_right_iff.mp each)
  have well := fun e he => (Expr.meets_of_read each e he).1
  have without := fun e he => (Expr.meets_of_read each e he).2
  have read := Expr.parse_toString_combine well without
  have single : texts.length = 1 ↔ more = [] := by
    rw [each.length_eq]
    simp
  refine ⟨combine first more, Expr.unionOf_eq_combine each, read, ?_, ?_⟩
  · rw [read, Except.ok.injEq, single]
    exact Expr.flattened_combine_eq_self_iff well
  · intro registry root start
    exact Expr.evaluateWith_flattened registry.functions root start _

theorem parse_pair_and_single :
    let child (name : String) : Expr := .path false [.mk .child (.named name) []]
    List.Forall₂ (fun text e => Expr.parse text = .ok e) ["child::a | child::b", "child::c"]
      [.union [child "a", child "b"], child "c"] := by
  intro child
  have pair : toString (Expr.union [child "a", child "b"]) = "child::a | child::b" := by decide
  have single : toString (child "c") = "child::c" := by decide
  have read (e : Expr) (well : e.meets wellFormed false) (without : e.meets withoutEither false) :
      Expr.parse (toString e) = .ok e := parse_toString well without
  exact .cons (pair ▸ read _ (by decide) (by decide))
    (.cons (single ▸ read _ (by decide) (by decide)) .nil)

theorem unionOf_read_back_pair :
    let child (name : String) : Expr := .path false [.mk .child (.named name) []]
    let e : Expr := .union [.union [child "a", child "b"], child "c"]
    Expr.unionOf ["child::a | child::b", "child::c"] = .ok e ∧
      Expr.parse (toString e) = .ok (.union [child "a", child "b", child "c"]) := by
  intro child e
  have whole : Expr.unionOf ["child::a | child::b", "child::c"] = .ok e :=
    Expr.unionOf_eq_combine parse_pair_and_single
  obtain ⟨f, joined, read, -⟩ := unionOf_read_back parse_pair_and_single (by decide)
  obtain rfl := Except.ok.inj (joined.symm.trans whole)
  exact ⟨whole, read⟩

theorem unionOf_pair_not_read_back :
    let texts := ["child::a | child::b", "child::c"]
    texts ≠ [] ∧ (∀ text ∈ texts, ∃ f, Expr.parse text = .ok f) ∧
      ¬ ∃ e, Expr.unionOf texts = .ok e ∧ Expr.parse (toString e) = .ok e := by
  intro texts
  refine ⟨by decide, ?_, ?_⟩
  · have each := parse_pair_and_single
    simp only [List.forall₂_cons, List.Forall₂.nil, and_true] at each
    simp [texts, each]
  · rintro ⟨e, joined, read⟩
    have well := fun e he => (Expr.meets_of_read parse_pair_and_single e he).1
    have without := fun e he => (Expr.meets_of_read parse_pair_and_single e he).2
    have whole := Expr.unionOf_eq_combine parse_pair_and_single
    obtain rfl := Except.ok.inj (whole.symm.trans joined)
    rw [Expr.parse_toString_combine well without, Except.ok.injEq,
      Expr.flattened_combine_eq_self_iff well] at read
    rcases read with single | paths
    · cases single
    · cases paths _ List.mem_cons_self

end TreeQuery
