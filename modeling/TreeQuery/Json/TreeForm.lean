import TreeQuery.Json.Printer
import TreeQuery.Json.Reader
import TreeQuery.Text.Quoted
import TreeQuery.Tree.Passes

/-!
Trees in JSON. A node is an object with its name under `$name`, and where they are there its children,
its value and its offset under `$children`, `$value` and `$offset`. Every other member with a text is an
attribute; other members are ignored. The first problem in the order of the text is the one reported,
whether the text is no JSON or the JSON is no tree.
-/

namespace TreeQuery

open Json (Value Member Fault Number)

/-- What was expected where another value stands. -/
inductive Expected where
  | node
  | text
  | children
  | offset
  deriving DecidableEq, Repr

def Expected.phrase : Expected → String
  | node => "struct Node"
  | text => "a string"
  | children => "a sequence"
  | offset => "usize"

/-- Why a text holds no tree. -/
inductive TreeProblem where
  /-- The text is no JSON. -/
  | broken (fault : Fault)
  | duplicateField (name : String)
  | missingField (name : String)
  | wrongKind (found : String) (expected : Expected)
  | negativeOffset (magnitude : UInt64)
  deriving DecidableEq, Repr

/-- What kind of value this is, in the words of messages. -/
def Json.Value.kind : Value → String
  | .null => "null"
  | .boolean b => "boolean `" ++ toString b ++ "`"
  | .number (.natural n) => "integer `" ++ toString n.toNat ++ "`"
  | .number (.negative n) => "integer `-" ++ toString n.toNat ++ "`"
  | .number (.real x) => "floating point `" ++ Decimal.ofFloat x ++ "`"
  | .text s => "string " ++ Text.quoted s
  | .array .. => "sequence"
  | .object .. => "map"
  | .broken _ => "nothing"

def TreeProblem.message : TreeProblem → String
  | broken .unfinished => "the text ends too early"
  | broken .malformed => "the text is malformed"
  | duplicateField name => "duplicate field `" ++ name ++ "`"
  | missingField name => "missing field `" ++ name ++ "`"
  | wrongKind found expected => "invalid type: " ++ found ++ ", expected " ++ expected.phrase
  | negativeOffset n =>
    "invalid value: integer `-" ++ toString n.toNat ++ "`, expected " ++ Expected.offset.phrase

namespace TreeForm

def nameKey : String := "$name"
def childrenKey : String := "$children"
def valueKey : String := "$value"
def offsetKey : String := "$offset"

/-- The keys that do not name attributes. -/
def reservedKeys : List String := [nameKey, childrenKey, valueKey, offsetKey]

/-- The problem of a value that is not of the kind expected. -/
def mismatch (v : Value) (expected : Expected) : TreeProblem :=
  match v with
  | .broken fault => .broken fault
  | v => .wrongKind v.kind expected

def asText : Value → Except TreeProblem String
  | .text s => .ok s
  | v => .error (mismatch v .text)

/-- A text that may also be `null`, which stands for none. -/
def asOptionalText : Value → Except TreeProblem (Option String)
  | .null => .ok none
  | v => (asText v).map some

/-- An offset that may also be `null`, which stands for none. -/
def asOptionalOffset : Value → Except TreeProblem (Option UInt64)
  | .null => .ok none
  | .number (.natural n) => .ok (some n)
  | .number (.negative n) => .error (.negativeOffset n)
  | v => .error (mismatch v .offset)

/-- The attributes after a member that is not reserved: a text is set, anything else counts as none. -/
def withMember (attributes : Dictionary String) (key : String) (v : Value) :
    Except TreeProblem (Dictionary String) :=
  match v.fault?, v with
  | some fault, _ => .error (.broken fault)
  | none, .text s => .ok (attributes.insert key s)
  | none, _ => .ok (attributes.erase key)

/-- The members of a node's object read so far. -/
structure Fields where
  name : Option String := none
  children : Option (List (Tree Label)) := none
  value : Option (Option String) := none
  offset : Option (Option UInt64) := none
  attributes : Dictionary String := {}

/-- The node that the members of a whole object describe. -/
def Fields.node (fields : Fields) : Except TreeProblem (Tree Label) :=
  match fields.name with
  | none => .error (.missingField nameKey)
  | some name =>
    .ok ⟨⟨name, fields.value.getD none, fields.offset.getD none, fields.attributes⟩,
      fields.children.getD []⟩

mutual
/-- The node that an object describes. -/
def node : Value → Except TreeProblem (Tree Label)
  | .object members fault =>
    match withMembers {} members with
    | .error problem => .error problem
    | .ok fields =>
      match fault with
      | some fault => .error (.broken fault)
      | none => fields.node
  | v => .error (mismatch v .node)
/-- The nodes that the items of an array describe. -/
def nodes : List Value → Except TreeProblem (List (Tree Label))
  | [] => .ok []
  | v :: vs =>
    match node v with
    | .error problem => .error problem
    | .ok t =>
      match nodes vs with
      | .error problem => .error problem
      | .ok ts => .ok (t :: ts)
/-- Children: an array of nodes. -/
def asChildren : Value → Except TreeProblem (List (Tree Label))
  | .array items fault =>
    match nodes items with
    | .error problem => .error problem
    | .ok ts =>
      match fault with
      | some fault => .error (.broken fault)
      | none => .ok ts
  | v => .error (mismatch v .children)
/-- The fields after further members. -/
def withMembers (fields : Fields) : List Member → Except TreeProblem Fields
  | [] => .ok fields
  | .mk key v :: members =>
    if key = nameKey then
      if fields.name.isSome then .error (.duplicateField nameKey)
      else
        match asText v with
        | .error problem => .error problem
        | .ok s => withMembers { fields with name := some s } members
    else if key = childrenKey then
      if fields.children.isSome then .error (.duplicateField childrenKey)
      else
        match asChildren v with
        | .error problem => .error problem
        | .ok ts => withMembers { fields with children := some ts } members
    else if key = valueKey then
      if fields.value.isSome then .error (.duplicateField valueKey)
      else
        match asOptionalText v with
        | .error problem => .error problem
        | .ok s => withMembers { fields with value := some s } members
    else if key = offsetKey then
      if fields.offset.isSome then .error (.duplicateField offsetKey)
      else
        match asOptionalOffset v with
        | .error problem => .error problem
        | .ok n => withMembers { fields with offset := some n } members
    else
      match withMember fields.attributes key v with
      | .error problem => .error problem
      | .ok attributes => withMembers { fields with attributes } members
end

end TreeForm

namespace TreeForm

/-- The member for something optional, if it is there. -/
def optionalMember {α : Type} (key : String) (form : α → Value) : Option α → List Member
  | none => []
  | some a => [.mk key (form a)]

mutual
/-- The object that describes a tree: name, children, value and offset as far as they are there, and
then the attributes by key. -/
def ofTree : Tree Label → Value
  | ⟨label, children⟩ =>
    .object
      (.mk nameKey (.text label.name) ::
        (match children with
          | [] => []
          | child :: more => [.mk childrenKey (.array (ofTree child :: ofTrees more) none)]) ++
        optionalMember valueKey .text label.value ++
        optionalMember offsetKey (fun n => .number (.natural n)) label.offset ++
        label.attributes.entries.map fun (key, text) => .mk key (.text text))
      none
/-- The objects that describe several trees. -/
def ofTrees : List (Tree Label) → List Value
  | [] => []
  | t :: ts => ofTree t :: ofTrees ts
end

end TreeForm

namespace Tree

/-- The JSON text of a tree. -/
def toJson (t : Tree Label) : String := (TreeForm.ofTree t).written

/-- Reads a tree from a JSON text. With `expose`, the values of terminals become attributes of their
parents. -/
def ofJson (text : String) (expose : Bool) : Except TreeProblem (Tree Label) :=
  match Json.read text with
  | (v, trailing) =>
    match TreeForm.node v, trailing with
    | .error problem, _ => .error problem
    | .ok _, some fault => .error (.broken fault)
    | .ok t, none => .ok (if expose then t.exposeTerminals else t)

end Tree

end TreeQuery
