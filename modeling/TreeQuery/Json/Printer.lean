import TreeQuery.Decimal.Shortest
import TreeQuery.Json.Text

namespace TreeQuery.Json

/-- A number, followed by `rest`. -/
def Number.write : Number → List Char → List Char
  | natural n, rest => Nat.toDigits 10 n.toNat ++ rest
  | negative n, rest => '-' :: Nat.toDigits 10 n.toNat ++ rest
  | real x, rest => (Decimal.ofFloat x).toList ++ rest

mutual
/-- A value, followed by `rest`. What is broken off is left out. -/
def Value.write : Value → List Char → List Char
  | .null, rest => 'n' :: 'u' :: 'l' :: 'l' :: rest
  | .boolean true, rest => 't' :: 'r' :: 'u' :: 'e' :: rest
  | .boolean false, rest => 'f' :: 'a' :: 'l' :: 's' :: 'e' :: rest
  | .number n, rest => n.write rest
  | .text s, rest => writeText s rest
  | .array items _, rest => '[' :: Value.writeItems items (']' :: rest)
  | .object members _, rest => '\x7b' :: Value.writeMembers members ('\x7d' :: rest)
  | .broken _, rest => rest
/-- Items with commas between them, followed by `rest`. -/
def Value.writeItems : List Value → List Char → List Char
  | [], rest => rest
  | [v], rest => v.write rest
  | v :: w :: vs, rest => v.write (',' :: Value.writeItems (w :: vs) rest)
/-- Members with commas between them, followed by `rest`. -/
def Value.writeMembers : List Member → List Char → List Char
  | [], rest => rest
  | [m], rest => Value.writeMember m rest
  | m :: n :: ms, rest => Value.writeMember m (',' :: Value.writeMembers (n :: ms) rest)
/-- A key, a colon and a value, followed by `rest`. -/
def Value.writeMember : Member → List Char → List Char
  | .mk key v, rest => writeText key (':' :: v.write rest)
end

/-- The text of a value. -/
def Value.written (v : Value) : String := String.ofList (v.write [])

/-- An object with these members. -/
def Value.record (members : List (String × Value)) : Value :=
  .object (members.map fun (key, v) => .mk key v) none

end TreeQuery.Json
