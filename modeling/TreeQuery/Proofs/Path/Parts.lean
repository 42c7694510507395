import TreeQuery.Path.Expr

namespace TreeQuery

/-- What an induction over expressions, steps and predicates has to show, constructor by
constructor. -/
structure PartsInduction (P : Expr → Prop) (Q : Step → Prop) (R : Predicate → Prop) : Prop where
  path : ∀ absolute steps, (∀ s ∈ steps, Q s) → P (.path absolute steps)
  union : ∀ branches, (∀ e ∈ branches, P e) → P (.union branches)
  step : ∀ axis test predicates, (∀ p ∈ predicates, R p) → Q (.mk axis test predicates)
  attributes : ∀ name value, R (.attribute name value)
  position : ∀ number, R (.position number)
  nested : ∀ e, P e → R (.nested e)
  function : ∀ name, R (.function name)
  either : ∀ p q, R p → R q → R (.either p q)

namespace PartsInduction

variable {P : Expr → Prop} {Q : Step → Prop} {R : Predicate → Prop}

mutual
theorem expr (i : PartsInduction P Q R) : ∀ e, P e
  | .path absolute steps => i.path absolute steps (i.steps steps)
  | .union branches => i.union branches (i.exprs branches)
theorem exprs (i : PartsInduction P Q R) : ∀ es : List Expr, ∀ e ∈ es, P e
  | [], _, h => nomatch h
  | e :: _, _, .head _ => i.expr e
  | _ :: es, f, .tail _ h => i.exprs es f h
theorem stepAt (i : PartsInduction P Q R) : ∀ s, Q s
  | .mk axis test predicates => i.step axis test predicates (i.predicates predicates)
theorem steps (i : PartsInduction P Q R) : ∀ ss : List Step, ∀ s ∈ ss, Q s
  | [], _, h => nomatch h
  | s :: _, _, .head _ => i.stepAt s
  | _ :: ss, t, .tail _ h => i.steps ss t h
theorem predicate (i : PartsInduction P Q R) : ∀ p, R p
  | .attribute name value => i.attributes name value
  | .position number => i.position number
  | .nested e => i.nested e (i.expr e)
  | .function name => i.function name
  | .either p q => i.either p q (i.predicate p) (i.predicate q)
theorem predicates (i : PartsInduction P Q R) : ∀ ps : List Predicate, ∀ p ∈ ps, R p
  | [], _, h => nomatch h
  | p :: _, _, .head _ => i.predicate p
  | _ :: ps, q, .tail _ h => i.predicates ps q h
end

end PartsInduction

/-- What is asked of the parts of an expression. Of a step it may also matter whether it stands
inside a predicate. -/
structure Criteria where
  expr : Expr → Bool := fun _ => true
  step : (inside : Bool) → Step → Bool := fun _ _ => true
  predicate : Predicate → Bool := fun _ => true

mutual
/-- Whether an expression and all its parts meet the criteria; `inside` tells whether it stands in a
predicate itself. -/
def Expr.meets (c : Criteria) : (inside : Bool) → Expr → Bool
  | inside, .path absolute steps =>
    c.expr (.path absolute steps) && Step.allMeet c inside steps
  | inside, .union branches => c.expr (.union branches) && Expr.allMeet c inside branches
def Expr.allMeet (c : Criteria) : (inside : Bool) → List Expr → Bool
  | _, [] => true
  | inside, e :: es => Expr.meets c inside e && Expr.allMeet c inside es
def Step.meets (c : Criteria) : (inside : Bool) → Step → Bool
  | inside, .mk axis test predicates =>
    c.step inside (.mk axis test predicates) && Predicate.allMeet c inside predicates
def Step.allMeet (c : Criteria) : (inside : Bool) → List Step → Bool
  | _, [] => true
  | inside, s :: ss => Step.meets c inside s && Step.allMeet c inside ss
def Predicate.meets (c : Criteria) : (inside : Bool) → Predicate → Bool
  | _, .attribute name value => c.predicate (.attribute name value)
  | _, .position number => c.predicate (.position number)
  | _, .nested e => c.predicate (.nested e) && Expr.meets c true e
  | _, .function name => c.predicate (.function name)
  | inside, .either p q =>
    c.predicate (.either p q) && (Predicate.meets c inside p && Predicate.meets c inside q)
def Predicate.allMeet (c : Criteria) : (inside : Bool) → List Predicate → Bool
  | _, [] => true
  | inside, p :: ps => Predicate.meets c inside p && Predicate.allMeet c inside ps
end

section

variable (c : Criteria) (inside : Bool)

theorem Expr.allMeet_eq (es : List Expr) :
    Expr.allMeet c inside es = es.all (Expr.meets c inside) := by
  induction es with
  | nil => rfl
  | cons e es ih => rw [Expr.allMeet, ih, List.all_cons]

theorem Step.allMeet_eq (ss : List Step) :
    Step.allMeet c inside ss = ss.all (Step.meets c inside) := by
  induction ss with
  | nil => rfl
  | cons s ss ih => rw [Step.allMeet, ih, List.all_cons]

theorem Predicate.allMeet_eq (ps : List Predicate) :
    Predicate.allMeet c inside ps = ps.all (Predicate.meets c inside) := by
  induction ps with
  | nil => rfl
  | cons p ps ih => rw [Predicate.allMeet, ih, List.all_cons]

@[simp] theorem Expr.meets_path (absolute : Bool) (steps : List Step) :
    (Expr.path absolute steps).meets c inside ↔
      c.expr (.path absolute steps) ∧ ∀ s ∈ steps, s.meets c inside := by
  rw [Expr.meets, Bool.and_eq_true, Step.allMeet_eq, List.all_eq_true]

@[simp] theorem Expr.meets_union (branches : List Expr) :
    (Expr.union branches).meets c inside ↔
      c.expr (.union branches) ∧ ∀ e ∈ branches, e.meets c inside := by
  rw [Expr.meets, Bool.and_eq_true, Expr.allMeet_eq, List.all_eq_true]

@[simp] theorem Step.meets_mk (axis : Axis) (test : NodeTest) (predicates : List Predicate) :
    (Step.mk axis test predicates).meets c inside ↔
      c.step inside (.mk axis test predicates) ∧ ∀ p ∈ predicates, p.meets c inside := by
  rw [Step.meets, Bool.and_eq_true, Predicate.allMeet_eq, List.all_eq_true]

@[simp] theorem Predicate.meets_attribute (name value : String) :
    (Predicate.attribute name value).meets c inside = c.predicate (.attribute name value) := rfl

@[simp] theorem Predicate.meets_position (number : Nat) :
    (Predicate.position number).meets c inside = c.predicate (.position number) := rfl

@[simp] theorem Predicate.meets_function (name : String) :
    (Predicate.function name).meets c inside = c.predicate (.function name) := rfl

@[simp] theorem Predicate.meets_nested (e : Expr) :
    (Predicate.nested e).meets c inside ↔ c.predicate (.nested e) ∧ e.meets c true := by
  rw [Predicate.meets, Bool.and_eq_true]

@[simp] theorem Predicate.meets_either (p q : Predicate) :
    (Predicate.either p q).meets c inside ↔
      c.predicate (.either p q) ∧ p.meets c inside ∧ q.meets c inside := by
  rw [Predicate.meets, Bool.and_eq_true, Bool.and_eq_true]

end

end TreeQuery
