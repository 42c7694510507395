import TreeQuery.Json.Printer
import TreeQuery.Query.Evaluation

namespace TreeQuery

/-- What a report says of the matches. -/
inductive ReportMode where
  /-- A record of each. -/
  | nodes
  /-- The value of each that has one. -/
  | values
  /-- A record of the only one, or `null`. -/
  | scalar
  /-- How many there are. -/
  | count
  deriving DecidableEq, Repr, Inhabited

namespace ReportMode

def all : List ReportMode := [nodes, values, scalar, count]

def name : ReportMode → String
  | nodes => "nodes"
  | values => "values"
  | scalar => "scalar"
  | count => "count"

def ofName? (name : String) : Option ReportMode := all.find? fun mode => mode.name = name

/-- The mode where none is asked for. -/
def standard : ReportMode := nodes

end ReportMode

/-- The record of a node: its name, and its value and offset where they are there. -/
def Handle.record (h : Handle) : Json.Value :=
  .record
    ([("name", .text h.name)] ++
      (h.value?.map fun s => ("value", .text s)).toList ++
      (h.offset?.map fun n => ("offset", .number (.natural n))).toList)

/-- The lines of a report. -/
def ReportMode.lines (mode : ReportMode) (matched : List Handle) : List String :=
  match mode with
  | nodes => matched.map fun h => h.record.written
  | values => Handle.values matched
  | scalar => [match Handle.single? matched with
    | some h => h.record.written
    | none => Json.Value.written .null]
  | count => [toString matched.length]

/-- A report: its lines, each with a line feed at the end. -/
def ReportMode.report (mode : ReportMode) (matched : List Handle) : String :=
  String.join ((mode.lines matched).map (· ++ "\n"))

/-- Evaluates an expression from the root, and reports the matches and how many there are. -/
def Expr.report (e : Expr) (mode : ReportMode) (registry : Registry) (root : Handle) :
    Except PathError (String × Nat) := do
  let matched ← (e.evaluate registry root).value
  pure (mode.report matched, matched.length)

end TreeQuery
