import TreeQuery.Path.Parser

namespace TreeQuery.Path

/-- The spaces that may stand around bars and equals signs and inside brackets, or nothing. -/
def Spaces (t : List Char) : Prop := ∀ c ∈ t, isSpace c

/-- A nonempty run of characters that satisfy `p`. -/
def RunOf (p : Char → Bool) (t : List Char) : Prop := t ≠ [] ∧ ∀ c ∈ t, p c

/-- Any number of items, one behind the other. -/
inductive Repeated {α : Type} (Item : List Char → α → Prop) : List Char → List α → Prop where
  | nil : Repeated Item [] []
  | cons {t u : List Char} {a : α} {as : List α} (first : Item t a) (more : Repeated Item u as) :
    Repeated Item (t ++ u) (a :: as)

/-- An axis in front of the rest of its step. A second dot always belongs to the axis. -/
inductive AxisText : (text behind : List Char) → Axis → Prop where
  | slash {behind} : AxisText ['/'] behind .descendantOrSelf
  | twoDots {behind} : AxisText ['.', '.'] behind .parent
  | oneDot {behind} (single : behind.head? ≠ some '.') : AxisText ['.'] behind .self
  | full {behind} (axis : Axis) : AxisText (axis.name.toList ++ [':', ':']) behind axis

/-- What starts with an axis, be it one of the nine or not. Such a text is never read as a step
without an axis. -/
inductive AxisAhead : List Char → Prop where
  | slash (rest : List Char) : AxisAhead ('/' :: rest)
  | dot (rest : List Char) : AxisAhead ('.' :: rest)
  | full {name : List Char} (run : RunOf isAxisChar name) (rest : List Char) :
    AxisAhead (name ++ ':' :: ':' :: rest)

inductive TestText : List Char → NodeTest → Prop where
  | any : TestText ['*'] .any
  | named {t : List Char} (run : RunOf isNameChar t) : TestText t (.named (String.ofList t))

/-- A value between two quotes of one kind; the value holds none of that kind. -/
inductive QuotedText : List Char → List Char → Prop where
  | single {v : List Char} (free : '\'' ∉ v) : QuotedText ('\'' :: (v ++ ['\''])) v
  | double {v : List Char} (free : '"' ∉ v) : QuotedText ('"' :: (v ++ ['"'])) v

inductive AttributeText : List Char → Predicate → Prop where
  | intro {n a b q v : List Char} (name : RunOf isNameChar n) (before : Spaces a)
    (after : Spaces b) (quoted : QuotedText q v) :
    AttributeText ('@' :: (n ++ (a ++ '=' :: (b ++ q))))
      (.attribute (String.ofList n) (String.ofList v))

inductive FunctionText : List Char → Predicate → Prop where
  | intro {c : Char} {t : List Char} (start : isFunctionStart c)
    (more : ∀ d ∈ t, isFunctionChar d) :
    FunctionText ('?' :: c :: t) (.function (String.ofList (c :: t)))

mutual

/-- Paths with bars between them. A single path is no union. -/
inductive ExprText : List Char → Expr → Prop where
  | path {t : List Char} {e : Expr} (path : PathText t e) : ExprText t e
  | union {t u : List Char} {e : Expr} {es : List Expr} (first : PathText t e)
    (more : Repeated NextPathText u es) (nonempty : es ≠ []) : ExprText (t ++ u) (.union (e :: es))

inductive NextPathText : List Char → Expr → Prop where
  | intro {a b t : List Char} {e : Expr} (before : Spaces a) (after : Spaces b)
    (path : PathText t e) : NextPathText (a ++ '|' :: (b ++ t)) e

/-- A slash in front marks the path and is no part of its first step. -/
inductive PathText : List Char → Expr → Prop where
  | absolute {t : List Char} {ss : List Step} (steps : StepsText t ss) :
    PathText ('/' :: t) (.path true ss)
  | relative {t : List Char} {ss : List Step} (steps : StepsText t ss)
    (unmarked : t.head? ≠ some '/') : PathText t (.path false ss)

inductive StepsText : List Char → List Step → Prop where
  | intro {t u : List Char} {s : Step} {ss : List Step} (first : StepText t s)
    (more : Repeated NextStepText u ss) : StepsText (t ++ u) (s :: ss)

inductive NextStepText : List Char → Step → Prop where
  | intro {t : List Char} {s : Step} (step : StepText t s) : NextStepText ('/' :: t) s

inductive StepText : List Char → Step → Prop where
  | full {a t u : List Char} {axis : Axis} {test : NodeTest} {ps : List Predicate}
    (hasAxis : AxisText a (t ++ u) axis) (hasTest : TestText t test)
    (predicates : Repeated PredicateText u ps) : StepText (a ++ (t ++ u)) (.mk axis test ps)
  | axisOnly {a u : List Char} {axis : Axis} {ps : List Predicate} (hasAxis : AxisText a u axis)
    (omittable : axis = .parent ∨ axis = .self) (predicates : Repeated PredicateText u ps) :
    StepText (a ++ u) (.mk axis .any ps)
  | testOnly {t u : List Char} {test : NodeTest} {ps : List Predicate}
    (noAxis : ¬ AxisAhead (t ++ u)) (hasTest : TestText t test)
    (predicates : Repeated PredicateText u ps) : StepText (t ++ u) (.mk .child test ps)

inductive PredicateText : List Char → Predicate → Prop where
  | intro {a b t : List Char} {p : Predicate} (before : Spaces a) (after : Spaces b)
    (body : BodyText t p) : PredicateText ('[' :: (a ++ (t ++ (b ++ [']'])))) p

/-- What stands in brackets. Digits alone are a position and never a name. -/
inductive BodyText : List Char → Predicate → Prop where
  | ofAttribute {t : List Char} {p : Predicate} (text : AttributeText t p) : BodyText t p
  | ofFunction {t : List Char} {p : Predicate} (text : FunctionText t p) : BodyText t p
  | ofDigits {digits : List Char} (run : RunOf Char.isDigit digits)
    (below : Nat.ofDigitChars 10 digits 0 < 0x10000000000000000) :
    BodyText digits (.position (Nat.ofDigitChars 10 digits 0))
  | ofExpr {t : List Char} {e : Expr} (expr : ExprText t e) (notDigits : ∃ c ∈ t, ¬ c.isDigit) :
    BodyText t (.nested e)

end

end TreeQuery.Path
