import TreeQuery.CommandLine.Input
import TreeQuery.Query.Report

namespace TreeQuery.CommandLine

/-- What the arguments ask for. -/
structure Arguments where
  expression : String
  file : Option String
  format : Option InputFormat
  mode : ReportMode
  /-- Whether expressions may use the functions `terminal` and `last`. -/
  builtins : Bool
  /-- Whether nodes of a JSON tree know their parents. -/
  parentIndex : Bool
  /-- Whether the values of terminals of a JSON tree become attributes of their parents. -/
  exposeTerminals : Bool
  deriving DecidableEq, Repr

/-- Why the arguments make no sense. -/
inductive UsageError where
  | unknownOption (argument : String)
  | repeatedOption (name : String)
  | missingValue (name : String)
  | badValue (name value : String)
  | unexpectedValue (name : String)
  | missingExpression
  | tooManyArguments (argument : String)
  deriving DecidableEq, Repr

def UsageError.message : UsageError → String
  | unknownOption argument => "unexpected argument '" ++ argument ++ "' found"
  | repeatedOption name => "the argument '--" ++ name ++ "' cannot be used multiple times"
  | missingValue name => "a value is required for '--" ++ name ++ "' but none was supplied"
  | badValue name value => "invalid value '" ++ value ++ "' for '" ++ name ++ "'"
  | unexpectedValue name => "'--" ++ name ++ "' takes no value"
  | missingExpression => "the expression is missing"
  | tooManyArguments argument => "unexpected argument '" ++ argument ++ "' found"

/-- The arguments read so far. -/
structure Progress where
  positional : List String := []
  format : Option InputFormat := none
  mode : Option ReportMode := none
  noBuiltins : Bool := false
  noParentIndex : Bool := false
  dynamicProperties : Bool := false

namespace Progress

/-- Adds an option that takes no value; `none` if there is no such option. -/
def addFlag? (p : Progress) (name : String) : Option (Except UsageError Progress) :=
  let once (before : Bool) (next : Progress) : Option (Except UsageError Progress) :=
    some (if before then .error (.repeatedOption name) else .ok next)
  match name with
  | "no-builtins" => once p.noBuiltins { p with noBuiltins := true }
  | "no-parent-index" => once p.noParentIndex { p with noParentIndex := true }
  | "dynamic-properties" => once p.dynamicProperties { p with dynamicProperties := true }
  | _ => none

/-- The options that take a value. -/
def takesValue (name : String) : Bool := name = "format" || name = "output"

/-- Adds an option with its value. -/
def addValue (p : Progress) (name value : String) : Except UsageError Progress :=
  if name = "format" then
    if p.format.isSome then .error (.repeatedOption name)
    else
      match InputFormat.ofName? value with
      | some format => .ok { p with format := some format }
      | none => .error (.badValue name value)
  else if p.mode.isSome then .error (.repeatedOption name)
  else
    match ReportMode.ofName? value with
    | some mode => .ok { p with mode := some mode }
    | none => .error (.badValue name value)

/-- Adds a positional argument: first the expression, then the file, whose name is never empty. -/
def addPositional (p : Progress) (argument : String) : Except UsageError Progress :=
  match p.positional with
  | [] => .ok { p with positional := [argument] }
  | [expression] =>
    if argument = "" then .error (.badValue "FILE" argument)
    else .ok { p with positional := [expression, argument] }
  | _ => .error (.tooManyArguments argument)

/-- The name and the value of an option written `name=value`, or the name alone. -/
def splitOption (option : List Char) : String × Option String :=
  match option.dropWhile (· ≠ '=') with
  | [] => (String.ofList option, none)
  | _ :: value => (String.ofList (option.takeWhile (· ≠ '=')), some (String.ofList value))

/-- Whether an argument is an option. A single hyphen is none. -/
def isOption (argument : String) : Bool :=
  match argument.toList with
  | '-' :: _ :: _ => true
  | _ => false

/-- Goes on with the arguments. A value of its own must not look like an option, and behind `--` there
are no more options. -/
def readAll (p : Progress) : List String → Except UsageError Progress
  | [] => .ok p
  | argument :: rest =>
    if argument = "--" then rest.foldlM addPositional p
    else
      match argument.toList with
      | '-' :: '-' :: option =>
        let (name, value) := splitOption option
        match p.addFlag? name, takesValue name, value with
        | some _, _, some _ => .error (.unexpectedValue name)
        | some next, _, none =>
          match next with
          | .ok p => readAll p rest
          | .error error => .error error
        | none, true, some value =>
          match p.addValue name value with
          | .ok p => readAll p rest
          | .error error => .error error
        | none, true, none =>
          match rest with
          | [] => .error (.missingValue name)
          | value :: rest =>
            if isOption value then .error (.missingValue name)
            else
              match p.addValue name value with
              | .ok p => readAll p rest
              | .error error => .error error
        | none, false, _ => .error (.unknownOption argument)
      | _ =>
        if isOption argument then .error (.unknownOption argument)
        else
          match p.addPositional argument with
          | .ok p => readAll p rest
          | .error error => .error error

/-- The arguments as a whole. -/
def arguments (p : Progress) : Except UsageError Arguments :=
  match p.positional with
  | [] => .error .missingExpression
  | expression :: file =>
    .ok ⟨expression, file.head?, p.format, p.mode.getD .standard, !p.noBuiltins, !p.noParentIndex,
      p.dynamicProperties⟩

end Progress

def Arguments.ofList (arguments : List String) : Except UsageError Arguments := do
  (← Progress.readAll {} arguments).arguments

end TreeQuery.CommandLine
