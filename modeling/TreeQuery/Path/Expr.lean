import TreeQuery.Path.Axis

namespace TreeQuery

mutual

/-- A path expression. -/
inductive Expr where
  /-- Steps taken one after the other. Evaluation starts where its caller says, so `absolute` only
  records that the text starts with a slash. -/
  | path (absolute : Bool) (steps : List Step)
  /-- Alternatives, whose matches are merged in order. -/
  | union (branches : List Expr)

/-- One step: an axis, a test of names, and filters. -/
inductive Step where
  | mk (axis : Axis) (test : NodeTest) (predicates : List Predicate)

/-- A filter on the nodes that one step reaches from one node. -/
inductive Predicate where
  /-- The attribute `name` has exactly this value. -/
  | attribute (name value : String)
  /-- The node is at this position, counted from 1. -/
  | position (number : Nat)
  /-- The expression matches something when it starts from the node. -/
  | nested (expr : Expr)
  /-- A function of this name accepts the node. -/
  | function (name : String)
  /-- One of the two holds. There is no way to write it in an expression's text. -/
  | either (first second : Predicate)

end

instance : Inhabited Expr := ⟨.path false []⟩
instance : Inhabited Step := ⟨.mk .child .any []⟩
instance : Inhabited Predicate := ⟨.position 0⟩

namespace Step

def axis : Step → Axis
  | mk axis _ _ => axis

def test : Step → NodeTest
  | mk _ test _ => test

def predicates : Step → List Predicate
  | mk _ _ predicates => predicates

end Step

namespace Expr

def isUnion : Expr → Bool
  | union _ => true
  | path .. => false

mutual
/-- All predicates of an expression, each before those inside it, in the order of the text. -/
def predicates : Expr → List Predicate
  | path _ steps => stepsPredicates steps
  | union branches => branchesPredicates branches
/-- The predicates of several branches. -/
def branchesPredicates : List Expr → List Predicate
  | [] => []
  | e :: es => e.predicates ++ branchesPredicates es
/-- The predicates of several steps. -/
def stepsPredicates : List Step → List Predicate
  | [] => []
  | s :: ss => stepPredicates s ++ stepsPredicates ss
/-- The predicates of one step. -/
def stepPredicates : Step → List Predicate
  | .mk _ _ ps => listPredicates ps
/-- Several predicates and those inside them. -/
def listPredicates : List Predicate → List Predicate
  | [] => []
  | p :: ps => withInner p ++ listPredicates ps
/-- One predicate and those inside it. -/
def withInner : Predicate → List Predicate
  | .nested e => .nested e :: e.predicates
  | .either p q => .either p q :: (withInner p ++ withInner q)
  | .attribute name value => [.attribute name value]
  | .position number => [.position number]
  | .function name => [.function name]
end

/-- The names of the functions an expression uses, each once, in the order of first use. -/
def functionNames (e : Expr) : List String :=
  (e.predicates.filterMap fun
    | .function name => some name
    | _ => none).foldl (fun found name => if name ∈ found then found else found ++ [name]) []

end Expr

mutual
/-- Equality of expressions is decided part by part. -/
def Expr.decideEq : (a b : Expr) → Decidable (a = b)
  | .path a ss, .path b ts =>
    match decEq a b, Step.decideEqs ss ts with
    | isTrue h, isTrue hs => isTrue (by rw [h, hs])
    | isFalse h, _ => isFalse (by rintro ⟨⟩; exact h rfl)
    | _, isFalse h => isFalse (by rintro ⟨⟩; exact h rfl)
  | .union as, .union bs =>
    match Expr.decideEqs as bs with
    | isTrue h => isTrue (by rw [h])
    | isFalse h => isFalse (by rintro ⟨⟩; exact h rfl)
  | .path .., .union .. | .union .., .path .. => isFalse nofun
/-- Equality of lists of expressions. -/
def Expr.decideEqs : (as bs : List Expr) → Decidable (as = bs)
  | [], [] => isTrue rfl
  | _ :: _, [] | [], _ :: _ => isFalse nofun
  | a :: as, b :: bs =>
    match Expr.decideEq a b, Expr.decideEqs as bs with
    | isTrue h, isTrue hs => isTrue (by rw [h, hs])
    | isFalse h, _ => isFalse (by rintro ⟨⟩; exact h rfl)
    | _, isFalse h => isFalse (by rintro ⟨⟩; exact h rfl)
/-- Equality of steps. -/
def Step.decideEq : (a b : Step) → Decidable (a = b)
  | .mk a s ps, .mk b t qs =>
    match decEq a b, decEq s t, Predicate.decideEqs ps qs with
    | isTrue h, isTrue h', isTrue hs => isTrue (by rw [h, h', hs])
    | isFalse h, _, _ => isFalse (by rintro ⟨⟩; exact h rfl)
    | _, isFalse h, _ => isFalse (by rintro ⟨⟩; exact h rfl)
    | _, _, isFalse h => isFalse (by rintro ⟨⟩; exact h rfl)
/-- Equality of lists of steps. -/
def Step.decideEqs : (as bs : List Step) → Decidable (as = bs)
  | [], [] => isTrue rfl
  | _ :: _, [] | [], _ :: _ => isFalse nofun
  | a :: as, b :: bs =>
    match Step.decideEq a b, Step.decideEqs as bs with
    | isTrue h, isTrue hs => isTrue (by rw [h, hs])
    | isFalse h, _ => isFalse (by rintro ⟨⟩; exact h rfl)
    | _, isFalse h => isFalse (by rintro ⟨⟩; exact h rfl)
/-- Equality of predicates. -/
def Predicate.decideEq : (p q : Predicate) → Decidable (p = q)
  | .attribute n v, .attribute m w =>
    match decEq n m, decEq v w with
    | isTrue h, isTrue h' => isTrue (by rw [h, h'])
    | isFalse h, _ => isFalse (by rintro ⟨⟩; exact h rfl)
    | _, isFalse h => isFalse (by rintro ⟨⟩; exact h rfl)
  | .position n, .position m =>
    match decEq n m with
    | isTrue h => isTrue (by rw [h])
    | isFalse h => isFalse (by rintro ⟨⟩; exact h rfl)
  | .nested a, .nested b =>
    match Expr.decideEq a b with
    | isTrue h => isTrue (by rw [h])
    | isFalse h => isFalse (by rintro ⟨⟩; exact h rfl)
  | .function n, .function m =>
    match decEq n m with
    | isTrue h => isTrue (by rw [h])
    | isFalse h => isFalse (by rintro ⟨⟩; exact h rfl)
  | .either a b, .either c d =>
    match Predicate.decideEq a c, Predicate.decideEq b d with
    | isTrue h, isTrue h' => isTrue (by rw [h, h'])
    | isFalse h, _ => isFalse (by rintro ⟨⟩; exact h rfl)
    | _, isFalse h => isFalse (by rintro ⟨⟩; exact h rfl)
  | .attribute .., .position .. | .attribute .., .nested .. | .attribute .., .function ..
  | .attribute .., .either .. | .position .., .attribute .. | .position .., .nested ..
  | .position .., .function .. | .position .., .either .. | .nested .., .attribute ..
  | .nested .., .position .. | .nested .., .function .. | .nested .., .either ..
  | .function .., .attribute .. | .function .., .position .. | .function .., .nested ..
  | .function .., .either .. | .either .., .attribute .. | .either .., .position ..
  | .either .., .nested .. | .either .., .function .. => isFalse nofun
/-- Equality of lists of predicates. -/
def Predicate.decideEqs : (ps qs : List Predicate) → Decidable (ps = qs)
  | [], [] => isTrue rfl
  | _ :: _, [] | [], _ :: _ => isFalse nofun
  | p :: ps, q :: qs =>
    match Predicate.decideEq p q, Predicate.decideEqs ps qs with
    | isTrue h, isTrue hs => isTrue (by rw [h, hs])
    | isFalse h, _ => isFalse (by rintro ⟨⟩; exact h rfl)
    | _, isFalse h => isFalse (by rintro ⟨⟩; exact h rfl)
end

instance : DecidableEq Expr := Expr.decideEq
instance : DecidableEq Step := Step.decideEq
instance : DecidableEq Predicate := Predicate.decideEq

end TreeQuery
