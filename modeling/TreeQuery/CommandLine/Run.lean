import TreeQuery.CommandLine.Arguments
import TreeQuery.Json.TreeForm
import TreeQuery.Xml.View

namespace TreeQuery.CommandLine

/-- Why a run with proper arguments fails. -/
inductive Failure where
  | path (error : PathError)
  | input (error : InputError)
  | json (problem : TreeProblem)
  | xml
  deriving DecidableEq, Repr

def Failure.message : Failure → String
  | path error => error.message
  | input error => "I/O error: " ++ error.message
  | json problem => "JSON parsing error: " ++ problem.message
  | xml => "XML parsing error: the document is not well-formed"

/-- The root that a run queries. -/
def Arguments.root (arguments : Arguments) (text : String) : Except Failure Handle :=
  match arguments.format.getD (InputFormat.detect arguments.file) with
  | .json =>
    match Tree.ofJson text arguments.exposeTerminals with
    | .error problem => .error (.json problem)
    | .ok t =>
      .ok (if arguments.parentIndex then (ParentIndex.build t.placed).root else .plain t.placed)
  | .xml =>
    match Xml.Document.ofText? text with
    | none => .error .xml
    | some d => .ok d.root

/-- What a run prints, or why it fails. -/
def Arguments.report (arguments : Arguments) (inputs : Inputs) : Except Failure String := do
  let expr ← (Expr.parse arguments.expression).mapError .path
  let text ← (inputs.text arguments.file).mapError .input
  let root ← arguments.root text
  let registry := if arguments.builtins then Registry.builtins else Registry.empty
  let (report, _) ← (expr.report arguments.mode registry root).mapError .path
  pure report

/-- What a run leaves behind. -/
structure Outcome where
  exit : UInt8
  stdout : String
  stderr : String
  deriving DecidableEq, Repr

/-- The exit code is 2 for arguments that make no sense and 1 for any other failure. -/
def run (arguments : List String) (inputs : Inputs) : Outcome :=
  match Arguments.ofList arguments with
  | .error error => ⟨2, "", "error: " ++ error.message ++ "\n"⟩
  | .ok arguments =>
    match arguments.report inputs with
    | .error failure => ⟨1, "", "Error: " ++ failure.message ++ "\n"⟩
    | .ok stdout => ⟨0, stdout, ""⟩

end TreeQuery.CommandLine
