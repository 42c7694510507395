import TreeQuery.Path.Expr

namespace TreeQuery

/-- Rules that say what may take the place of a part. -/
structure Rules where
  expr : Expr → Expr → Prop := fun _ _ => False
  step : Step → Step → Prop := fun _ _ => False
  predicate : Predicate → Predicate → Prop := fun _ _ => False

mutual
/-- The two differ in one part, which is rewritten by a rule. -/
inductive Expr.Rewrites (rules : Rules) : Expr → Expr → Prop
  | rule {e e' : Expr} (h : rules.expr e e') : Expr.Rewrites rules e e'
  | path {s s' : Step} (absolute : Bool) (before after : List Step) (h : Step.Rewrites rules s s') :
    Expr.Rewrites rules (.path absolute (before ++ s :: after))
      (.path absolute (before ++ s' :: after))
  | union {e e' : Expr} (before after : List Expr) (h : Expr.Rewrites rules e e') :
    Expr.Rewrites rules (.union (before ++ e :: after)) (.union (before ++ e' :: after))
inductive Step.Rewrites (rules : Rules) : Step → Step → Prop
  | rule {s s' : Step} (h : rules.step s s') : Step.Rewrites rules s s'
  | step {p p' : Predicate} (axis : Axis) (test : NodeTest) (before after : List Predicate)
    (h : Predicate.Rewrites rules p p') :
    Step.Rewrites rules (.mk axis test (before ++ p :: after))
      (.mk axis test (before ++ p' :: after))
inductive Predicate.Rewrites (rules : Rules) : Predicate → Predicate → Prop
  | rule {p p' : Predicate} (h : rules.predicate p p') : Predicate.Rewrites rules p p'
  | nested {e e' : Expr} (h : Expr.Rewrites rules e e') :
    Predicate.Rewrites rules (.nested e) (.nested e')
  | first {p p' : Predicate} (q : Predicate) (h : Predicate.Rewrites rules p p') :
    Predicate.Rewrites rules (.either p q) (.either p' q)
  | second (p : Predicate) {q q' : Predicate} (h : Predicate.Rewrites rules q q') :
    Predicate.Rewrites rules (.either p q) (.either p q')
end

/-- Relations that the rules keep to and that pass from a part to what it stands in. -/
structure Congruence (rules : Rules) (P : Expr → Expr → Prop) (Q : Step → Step → Prop)
    (R : Predicate → Predicate → Prop) : Prop where
  ruleExpr : ∀ e e', rules.expr e e' → P e e'
  ruleStep : ∀ s s', rules.step s s' → Q s s'
  rulePredicate : ∀ p p', rules.predicate p p' → R p p'
  path : ∀ absolute before after s s', Q s s' →
    P (.path absolute (before ++ s :: after)) (.path absolute (before ++ s' :: after))
  union : ∀ before after e e', P e e' →
    P (.union (before ++ e :: after)) (.union (before ++ e' :: after))
  step : ∀ axis test before after p p', R p p' →
    Q (.mk axis test (before ++ p :: after)) (.mk axis test (before ++ p' :: after))
  nested : ∀ e e', P e e' → R (.nested e) (.nested e')
  first : ∀ p p' q, R p p' → R (.either p q) (.either p' q)
  second : ∀ p q q', R q q' → R (.either p q) (.either p q')

namespace Congruence

variable {rules : Rules} {P : Expr → Expr → Prop} {Q : Step → Step → Prop}
  {R : Predicate → Predicate → Prop}

mutual
theorem expr (c : Congruence rules P Q R) : ∀ {e e'}, Expr.Rewrites rules e e' → P e e'
  | _, _, .rule h => c.ruleExpr _ _ h
  | _, _, .path absolute before after h => c.path absolute before after _ _ (c.stepAt h)
  | _, _, .union before after h => c.union before after _ _ (c.expr h)
theorem stepAt (c : Congruence rules P Q R) : ∀ {s s'}, Step.Rewrites rules s s' → Q s s'
  | _, _, .rule h => c.ruleStep _ _ h
  | _, _, .step axis test before after h => c.step axis test before after _ _ (c.predicate h)
theorem predicate (c : Congruence rules P Q R) : ∀ {p p'}, Predicate.Rewrites rules p p' → R p p'
  | _, _, .rule h => c.rulePredicate _ _ h
  | _, _, .nested h => c.nested _ _ (c.expr h)
  | _, _, .first q h => c.first _ _ q (c.predicate h)
  | _, _, .second p h => c.second p _ _ (c.predicate h)
end

end Congruence

end TreeQuery
