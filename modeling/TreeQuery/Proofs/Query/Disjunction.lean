import TreeQuery.Proofs.Query.Unchecked
import TreeQuery.Proofs.Query.Union

namespace TreeQuery

/-- A disjunction of nested expressions becomes a union, or operands of disjunctions change places. -/
inductive Predicate.Disjoins : Predicate → Predicate → Prop
  | joined (a b : Expr) : Disjoins (.either (.nested a) (.nested b)) (.nested (.union [a, b]))
  | exchanged (p q : Predicate) : Disjoins (.either p q) (.either q p)
  | regrouped (p q r : Predicate) :
    Disjoins (.either (.either p q) r) (.either p (.either q r))

/-- Rearranging of disjunctions, one at a time. -/
def Rules.disjunction : Rules := { predicate := Predicate.Disjoins }

/-- The two use the same functions, and find the same nodes if all of them are there. -/
structure Expr.Equivalent (e e' : Expr) : Prop where
  named : ∀ name, name ∈ e.named ↔ name ∈ e'.named
  found : ∀ answers root start, e.found answers root start = e'.found answers root start

structure Step.Equivalent (s s' : Step) : Prop where
  named : ∀ name, name ∈ s.named ↔ name ∈ s'.named
  found : ∀ answers root current, s.found answers root current = s'.found answers root current

structure Predicate.Equivalent (p p' : Predicate) : Prop where
  named : ∀ name, name ∈ p.named ↔ name ∈ p'.named
  accepts : ∀ answers h candidates root,
    p.accepts answers h candidates root = p'.accepts answers h candidates root

/-- Equivalent parts may replace each other wherever they stand. -/
theorem congruence_equivalent {rules : Rules} (expr : ∀ e e', rules.expr e e' → e.Equivalent e')
    (step : ∀ s s', rules.step s s' → s.Equivalent s')
    (predicate : ∀ p p', rules.predicate p p' → p.Equivalent p') :
    Congruence rules Expr.Equivalent Step.Equivalent Predicate.Equivalent where
  ruleExpr := expr
  ruleStep := step
  rulePredicate := predicate
  path absolute before after s s' same := by
    refine ⟨fun name => ?_, fun answers root start => ?_⟩
    · simp [same.named]
    · simp only [Expr.found, Step.foundAll_eq, List.foldl_append, List.foldl_cons, same.found]
  union before after e e' same := by
    refine ⟨fun name => ?_, fun answers root start => ?_⟩
    · simp [same.named]
    · simp only [Expr.found, Expr.foundAll_eq, List.flatMap_append, List.flatMap_cons, same.found]
  step axis test before after p p' same := by
    refine ⟨fun name => ?_, fun answers root current => ?_⟩
    · simp [same.named]
    · simp only [Step.found, Predicate.acceptAll_eq, List.all_append, List.all_cons, same.accepts]
  nested e e' same := by
    refine ⟨same.named, fun answers h candidates root => ?_⟩
    rw [Predicate.accepts, Predicate.accepts, same.found]
  first p p' q same := by
    refine ⟨fun name => ?_, fun answers h candidates root => ?_⟩
    · simp [same.named]
    · rw [Predicate.accepts, Predicate.accepts, same.accepts]
  second p q q' same := by
    refine ⟨fun name => ?_, fun answers h candidates root => ?_⟩
    · simp [same.named]
    · rw [Predicate.accepts, Predicate.accepts, same.accepts]

/-- Something is left of the joined matches of two expressions just if one of them has matches. -/
theorem Handle.isEmpty_distinct_append (hs ks : List Handle) :
    (distinct (hs ++ ks)).isEmpty = (hs.isEmpty && ks.isEmpty) := by
  have same : distinct (hs ++ ks) = [] ↔ hs ++ ks = [] := by
    rw [distinct_eq_eraseDups]
    cases hs ++ ks with
    | nil => simp
    | cons h hs => simp [List.eraseDups_cons]
  rw [Bool.eq_iff_iff, Bool.and_eq_true, List.isEmpty_iff, List.isEmpty_iff, List.isEmpty_iff, same,
    List.append_eq_nil_iff]

theorem Predicate.Disjoins.equivalent {p p' : Predicate} (h : Disjoins p p') : p.Equivalent p' := by
  cases h with
  | joined a b =>
    refine ⟨fun name => ?_, fun answers h candidates root => ?_⟩
    · simp
    · simp only [accepts, Expr.found, Expr.foundAll, List.append_nil,
        Handle.isEmpty_distinct_append, Bool.not_and]
  | exchanged p q =>
    refine ⟨fun name => ?_, fun answers h candidates root => ?_⟩
    · simp [or_comm]
    · rw [accepts, accepts, Bool.or_comm]
  | regrouped p q r =>
    refine ⟨fun name => ?_, fun answers h candidates root => ?_⟩
    · simp
    · rw [accepts, accepts, accepts, accepts, Bool.or_assoc]

theorem disjunction_equivalent :
    Congruence .disjunction Expr.Equivalent Step.Equivalent Predicate.Equivalent :=
  congruence_equivalent nofun nofun fun _ _ => Predicate.Disjoins.equivalent

namespace Expr

variable {e e' f : Expr}

theorem Equivalent.refl (e : Expr) : e.Equivalent e := ⟨fun _ => .rfl, fun _ _ _ => rfl⟩

theorem Equivalent.symm (same : e.Equivalent e') : e'.Equivalent e where
  named name := (same.named name).symm
  found answers root start := (same.found answers root start).symm

theorem Equivalent.trans (first : e.Equivalent e') (second : e'.Equivalent f) :
    e.Equivalent f where
  named name := (first.named name).trans (second.named name)
  found answers root start :=
    (first.found answers root start).trans (second.found answers root start)

/-- Replacing may go on, at any number of places and in both directions. -/
theorem Equivalent.of_eqvGen {rules : Rules}
    (same : Congruence rules Expr.Equivalent Step.Equivalent Predicate.Equivalent)
    (replaced : Relation.EqvGen (Expr.Rewrites rules) e e') : e.Equivalent e' := by
  induction replaced with
  | rel e e' once => exact same.expr once
  | refl e => exact .refl e
  | symm e e' _ ih => exact ih.symm
  | trans e e' f _ _ first second => exact first.trans second

/-- Equivalent expressions succeed alike, with the same matches. -/
theorem Equivalent.evaluateWith_eq_ok_iff (same : e.Equivalent e') (functions : Functions)
    (root start : Handle) (matched : List Handle) :
    (e.evaluateWith functions root start).value = .ok matched ↔
      (e'.evaluateWith functions root start).value = .ok matched := by
  have missing : e.missing functions = [] ↔ e'.missing functions = [] := by
    simp only [missing_eq_nil_iff, same.named]
  rw [Expr.evaluateWith_eq_ok_iff, Expr.evaluateWith_eq_ok_iff, missing]
  refine and_congr_right fun none' => ?_
  have none := missing.mpr none'
  have give := partsInduction_found functions.give_answer
  rw [give.expr e (fun _ => isSome_of_uses none), give.expr e' (fun _ => isSome_of_uses none'),
    same.found]

end Expr

/-- Wherever they stand in an expression, disjunctions of nested expressions may be replaced by unions,
and unions by disjunctions, and operands of disjunctions may be exchanged and regrouped: the expression
succeeds just as before, with the same nodes in the same order and as often. If all functions are
there, it does succeed. -/
theorem disjunction_as_union (registry : Registry) (root start : Handle) {e e' : Expr}
    (replaced : Relation.EqvGen (Expr.Rewrites .disjunction) e e') :
    (∀ matched, (e.evaluateFrom registry root start).value = .ok matched ↔
      (e'.evaluateFrom registry root start).value = .ok matched) ∧
    ((∀ name ∈ e.functionNames, registry.contains name = true) →
      ∃ matched, (e.evaluateFrom registry root start).value = .ok matched ∧
        (e'.evaluateFrom registry root start).value = .ok matched) := by
  have same := Expr.Equivalent.of_eqvGen disjunction_equivalent replaced
  have alike := same.evaluateWith_eq_ok_iff registry.functions root start
  refine ⟨alike, fun known => ?_⟩
  let matched := (e.select registry.functions root start).value
  have found : (e.evaluateFrom registry root start).value = .ok matched :=
    Expr.evaluateWith_eq_ok_iff.mpr ⟨Registry.missing_eq_nil known, rfl⟩
  exact ⟨matched, found, (alike matched).mp found⟩

theorem disjunction_as_union_inside :
    let child (name : String) : Expr := .path false [.mk .child (.named name) []]
    let last : Predicate := .function "last"
    let children (p : Predicate) : Expr := .path false [.mk .child .any [p]]
    let either : Predicate := .either (.either (.nested (child "d")) (.nested (child "g"))) last
    let union : Predicate := .either last (.nested (.union [child "d", child "g"]))
    let e := children (.nested (children either))
    let e' := children (.nested (children union))
    let b : Tree Label := ⟨{ name := "b" }, [⟨{ name := "c" }, [.named "d"]⟩, .named "c"]⟩
    let root : Handle := .plain (Tree.placed ⟨{ name := "a" }, [.named "g", b]⟩)
    Relation.EqvGen (Expr.Rewrites .disjunction) e' e ∧
      (∀ name ∈ e'.functionNames, Registry.builtins.contains name = true) ∧
      (e'.evaluateFrom .builtins root root).value = .ok [.plain (b.placedFrom 2)] ∧
      (e.evaluateFrom .builtins root root).value = .ok [.plain (b.placedFrom 2)] := by
  intro child last children either union e e' b root
  have inside {p p' : Predicate} (h : Predicate.Rewrites .disjunction p p') :
      Expr.Rewrites .disjunction (children (.nested (children p)))
        (children (.nested (children p'))) :=
    .path false [] [] (.step .child .any [] [] (.nested (.path false [] [] (.step .child .any [] [] h))))
  have joined := inside (.first last (.rule (.joined (child "d") (child "g"))))
  have exchanged := inside (.rule (.exchanged (.nested (.union [child "d", child "g"])) last))
  have replaced : Relation.EqvGen (Expr.Rewrites .disjunction) e' e :=
    .symm _ _ (.trans _ _ _ (.rel _ _ joined) (.rel _ _ exchanged))
  have known : ∀ name ∈ e'.functionNames, Registry.builtins.contains name = true := by decide
  have found : (e.evaluateFrom .builtins root root).value = .ok [.plain (b.placedFrom 2)] := rfl
  obtain ⟨-, succeeds⟩ := disjunction_as_union .builtins root root replaced
  obtain ⟨matched, before, after⟩ := succeeds known
  obtain rfl := Except.ok.inj (after.symm.trans found)
  exact ⟨replaced, known, before, after⟩

end TreeQuery
