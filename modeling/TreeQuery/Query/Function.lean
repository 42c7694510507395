import TreeQuery.Dictionary
import TreeQuery.Path.Error
import TreeQuery.Query.Trace

namespace TreeQuery

/-- What a function does once it is called: it answers, or it asks something of the evaluation first and
goes on by what it is told. -/
inductive FunctionBody where
  | answer (holds : Bool)
  /-- Asks whether there is a function of this name. -/
  | knows (name : String) (next : Bool → FunctionBody)
  /-- Calls a function with any node, candidates and root, and is told nothing if there is none. -/
  | call (name : String) (node : Handle) (candidates : List Handle) (root : Handle)
      (next : Option Bool → FunctionBody)
  /-- Evaluates an expression from any node under any root. -/
  | evaluate (root start : Handle) (e : Expr)
      (next : Except PathError (List Handle) → FunctionBody)

/-- A test that expressions can name. It is called with the node to test, all candidates of the step for
the same context node, and the root of the evaluation. A function is pure: it keeps nothing from one call
to the next, so what it does depends on these three and on what it is told when it asks. It may ask for
functions by name, but not for all the names there are. -/
abbrev PredicateFunction := (node : Handle) → (candidates : List Handle) → (root : Handle) → FunctionBody

/-- The functions known to an evaluation. -/
abbrev Registry := Dictionary PredicateFunction

namespace PredicateFunction

/-- Accepts the nodes that have a value and no children. -/
def terminal : PredicateFunction := fun node _ _ => .answer node.isTerminal

/-- Accepts the last of the candidates. -/
def last : PredicateFunction := fun node candidates _ =>
  .answer (match candidates.getLast? with
    | some h => h == node
    | none => false)

end PredicateFunction

namespace Registry

def empty : Registry := Dictionary.empty

/-- Adds a function, replacing one with the same name. -/
def register (registry : Registry) (name : String) (function : PredicateFunction) : Registry :=
  Dictionary.insert registry name function

/-- The registry of `terminal` and `last`. -/
def builtins : Registry :=
  (empty.register "terminal" .terminal).register "last" .last

/-- The names in the form that messages show. -/
def describe (registry : Registry) : String :=
  "FunctionRegistry \x7b functions: " ++ Text.quotedList registry.keys ++ " \x7d"

end Registry

/-- The functions as an evaluation calls them: by name, with the node, the candidates and the root. -/
abbrev Functions := String → Option (Handle → List Handle → Handle → Trace Bool)

end TreeQuery
