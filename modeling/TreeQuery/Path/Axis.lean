namespace TreeQuery

/-- The direction of a step. Sibling axes reach the nearest sibling only. -/
inductive Axis where
  | child
  | descendant
  | descendantOrSelf
  | self
  | parent
  | ancestor
  | ancestorOrSelf
  | followingSibling
  | precedingSibling
  deriving DecidableEq, Repr, Inhabited

namespace Axis

def all : List Axis :=
  [.child, .descendant, .descendantOrSelf, .self, .parent, .ancestor, .ancestorOrSelf,
   .followingSibling, .precedingSibling]

/-- The full name, as it stands before `::`. -/
def name : Axis → String
  | child => "child"
  | descendant => "descendant"
  | descendantOrSelf => "descendant-or-self"
  | self => "self"
  | parent => "parent"
  | ancestor => "ancestor"
  | ancestorOrSelf => "ancestor-or-self"
  | followingSibling => "following-sibling"
  | precedingSibling => "preceding-sibling"

def ofName? (name : String) : Option Axis := all.find? fun axis => axis.name = name

/-- Whether a step on this axis may leave out its node test, which then accepts every name. -/
def testOmittable : Axis → Bool
  | parent | self => true
  | _ => false

theorem ofName?_name (axis : Axis) : ofName? axis.name = some axis := by
  cases axis <;> decide

end Axis

/-- What a step asks of a node's name. -/
inductive NodeTest where
  /-- Written `*`. -/
  | any
  | named (name : String)
  deriving DecidableEq, Repr, Inhabited

def NodeTest.accepts : NodeTest → String → Bool
  | any, _ => true
  | named expected, name => expected = name

end TreeQuery
