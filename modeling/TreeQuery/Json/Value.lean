namespace TreeQuery.Json

/-- What is wrong with a text at the place where it stops making sense. -/
inductive Fault where
  /-- The text ends too early. -/
  | unfinished
  | malformed
  deriving DecidableEq, Repr

/-- A number. Whole numbers of 64 bits keep their value, all others are rounded. -/
inductive Number where
  | natural (n : UInt64)
  /-- The number below zero with this magnitude, of at most 2⁶³. -/
  | negative (magnitude : UInt64)
  | real (x : Float)
  deriving Repr

mutual
/-- A value, possibly broken off by a fault. -/
inductive Value where
  | null
  | boolean (b : Bool)
  | number (n : Number)
  | text (s : String)
  /-- The items, and a fault in place of what should follow them. -/
  | array (items : List Value) (fault : Option Fault)
  /-- The members in the order of the text, and a fault in place of what should follow them. -/
  | object (members : List Member) (fault : Option Fault)
  /-- No value could be read at all. -/
  | broken (fault : Fault)
/-- A key and its value. -/
inductive Member where
  | mk (key : String) (value : Value)
end

instance : Inhabited Value := ⟨.null⟩

namespace Member

def key : Member → String
  | mk key _ => key

def value : Member → Value
  | mk _ value => value

end Member

namespace Value

mutual
/-- The fault that a value holds, in itself or anywhere inside. -/
def fault? : Value → Option Fault
  | array items fault => (faults? items).or fault
  | object members fault => (memberFaults? members).or fault
  | broken fault => some fault
  | null | boolean _ | number _ | text _ => none
/-- The first fault in several values. -/
def faults? : List Value → Option Fault
  | [] => none
  | v :: vs => v.fault?.or (faults? vs)
/-- The first fault in the values of several members. -/
def memberFaults? : List Member → Option Fault
  | [] => none
  | .mk _ v :: ms => v.fault?.or (memberFaults? ms)
end

end Value

end TreeQuery.Json
