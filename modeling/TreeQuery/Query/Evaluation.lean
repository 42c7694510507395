import Std.Data.TreeSet
import TreeQuery.Path.Parser
import TreeQuery.Query.Axis
import TreeQuery.Query.Function

/-!
Evaluation of path expressions. A path carries a list of current nodes from step to step; a union joins
the matches of its branches and drops repetitions. All functions an expression names must be there
before anything is evaluated, and a nested expression is evaluated with its candidate as the root.
-/

namespace TreeQuery

/-- The list without later repetitions of a node. -/
def Handle.distinct (hs : List Handle) : List Handle :=
  (hs.foldl (fun (found, seen) h =>
    if seen.contains h.place then (found, seen) else (found.push h, seen.insert h.place))
    ((#[], ∅) : Array Handle × Std.TreeSet Nat)).1.toList

/-- The names of the functions that an expression uses and that are missing. -/
def Expr.missing (functions : Functions) (e : Expr) : List String :=
  e.functionNames.filter fun name => (functions name).isNone

/-- Calls a function by name, if it is there. -/
def Functions.call? (functions : Functions) (name : String) (node : Handle)
    (candidates : List Handle) (root : Handle) : Option (Trace Bool) :=
  (functions name).map fun function => do
    Trace.emit (.called name node candidates root)
    function node candidates root

/-- Whether the place of `h` among the candidates, counted from 1, is `number`. A node that is not
among them has no place, and 0 stands for no place. -/
def isAtPosition (number : Nat) (h : Handle) (candidates : List Handle) : Bool :=
  candidates.findIdx? (· == h) == if number = 0 then none else some (number - 1)

mutual
/-- The matches of an expression, with no check that its functions are there. -/
def Expr.select (functions : Functions) : Expr → (root start : Handle) → Trace (List Handle)
  | .path _ steps, root, start => Step.takeAll functions steps root [start]
  | .union branches, root, start => do
    let matched ← Expr.selectAll functions branches root start
    let distinct := Handle.distinct matched
    Trace.emit (.merged branches.length matched.length distinct.length)
    pure distinct
/-- The matches of several branches, one after the other. -/
def Expr.selectAll (functions : Functions) :
    List Expr → (root start : Handle) → Trace (List Handle)
  | [], _, _ => pure []
  | e :: es, root, start => do
    let first ← Expr.select functions e root start
    let more ← Expr.selectAll functions es root start
    pure (first ++ more)
/-- Takes steps one after the other, until no node is left or no step. -/
def Step.takeAll (functions : Functions) :
    List Step → (root : Handle) → (current : List Handle) → Trace (List Handle)
  | [], _, current => pure current
  | step :: steps, root, current =>
    if current.isEmpty then pure []
    else do
      let next ← Step.take functions step root current
      Trace.emit (.stepped step next.length)
      Step.takeAll functions steps root next
/-- Takes one step from each of the current nodes. -/
def Step.take (functions : Functions) :
    Step → (root : Handle) → (current : List Handle) → Trace (List Handle)
  | .mk axis test predicates, root, current =>
    Trace.flatMap (fun h =>
      let candidates := (axis.follow h root).filter fun c => test.accepts c.name
      Trace.filter (fun c => Predicate.holdAll functions predicates c candidates root) candidates)
      current
/-- Tests predicates from left to right up to the first that does not hold. -/
def Predicate.holdAll (functions : Functions) :
    List Predicate → Handle → (candidates : List Handle) → (root : Handle) → Trace Bool
  | [], _, _, _ => pure true
  | p :: ps, h, candidates, root => do
    if ← Predicate.holds functions p h candidates root then
      Predicate.holdAll functions ps h candidates root
    else pure false
/-- Tests one predicate of one candidate. An expression whose functions are missing matches nothing. -/
def Predicate.holds (functions : Functions) :
    Predicate → Handle → (candidates : List Handle) → (root : Handle) → Trace Bool
  | .attribute name value, h, _, _ => pure (h.property? name == some value)
  | .position number, h, candidates, _ => pure (isAtPosition number h candidates)
  | .nested e, h, _, _ =>
    match e.missing functions with
    | [] => do
      let matched ← Expr.select functions e h h
      pure !matched.isEmpty
    | missing => do
      Trace.emit (.refused e missing)
      pure false
  | .function name, h, candidates, root =>
    match functions.call? name h candidates root with
    | some answer => answer
    | none => do
      Trace.emit (.unregistered name)
      pure false
  | .either p q, h, candidates, root => do
    if ← Predicate.holds functions p h candidates root then pure true
    else Predicate.holds functions q h candidates root
end

/-- Evaluates an expression from `start`, which need not be the root, if its functions are there. -/
def Expr.evaluateWith (functions : Functions) (root start : Handle) (e : Expr) :
    Trace (Except PathError (List Handle)) :=
  match e.missing functions with
  | [] => do
    let matched ← e.select functions root start
    pure (.ok matched)
  | missing => do
    Trace.emit (.refused e missing)
    pure (.error (.missingFunctions missing))

/-- Goes through what a function does; what it asks is answered with `functions`. -/
def FunctionBody.run (functions : Functions) : FunctionBody → Trace Bool
  | answer holds => pure holds
  | knows name next => (next (functions name).isSome).run functions
  | call name node candidates root next =>
    match functions.call? name node candidates root with
    | some called => do
      let holds ← called
      (next (some holds)).run functions
    | none => (next none).run functions
  | evaluate root start e next => do
    let outcome ← e.evaluateWith functions root start
    (next outcome).run functions

namespace Registry

/-- The functions of a registry where no more can run. The answer is nobody's, and the trace says so. -/
def cutOff (registry : Registry) : Functions := fun name =>
  (registry.get? name).map fun _ _ _ _ => do
    Trace.emit (.cutOff name)
    pure false

/-- The functions of a registry as long as they call each other no deeper than this. -/
def functionsWithin (registry : Registry) : Nat → Functions
  | 0 => registry.cutOff
  | depth + 1 => fun name => (registry.get? name).map fun function node candidates root =>
    (function node candidates root).run (registry.functionsWithin depth)

/-- How deep the calls of functions by functions may go in an evaluation. No answer depends on it unless
the trace tells of a call that was cut off. -/
def maxCallDepth : Nat := 100000

/-- The functions of a registry. -/
def functions (registry : Registry) : Functions := registry.functionsWithin maxCallDepth

end Registry

/-- Evaluates an expression from `start` in the tree under `root`. -/
def Expr.evaluateFrom (e : Expr) (registry : Registry) (root start : Handle) :
    Trace (Except PathError (List Handle)) :=
  e.evaluateWith registry.functions root start

/-- Evaluates an expression from the root. -/
def Expr.evaluate (e : Expr) (registry : Registry) (root : Handle) :
    Trace (Except PathError (List Handle)) :=
  e.evaluateFrom registry root root

/-- Reads a text as an expression and evaluates it. -/
def evaluateText (text : String) (registry : Registry) (root start : Handle) :
    Trace (Except PathError (List Handle)) :=
  match Expr.parse text with
  | .ok e => e.evaluateFrom registry root start
  | .error error => pure (.error error)

namespace Handle

/-- The only match, where there is exactly one. -/
def single? : List Handle → Option Handle
  | [h] => some h
  | _ => none

/-- The value of the only match. -/
def singleValue? (matched : List Handle) : Option String := (single? matched).bind Handle.value?

/-- The values of the matches that have one. -/
def values (matched : List Handle) : List String := matched.filterMap Handle.value?

end Handle

end TreeQuery
