import TreeQuery.CommandLine.Run

namespace TreeQuery.CommandLine

/-- The cause of a failed reading. -/
def inputError : IO.Error → InputError
  | .noFileOrDirectory .. => .notFound
  | .inappropriateType _ 20 _ => .notADirectory
  | .inappropriateType .. => .isADirectory
  | .resourceExhausted .. => .nameTooLong
  | error => .other (toString error)

/-- Reads everything that an action gives. -/
def attempt (action : IO ByteArray) : IO (Except InputError ByteArray) := do
  try
    return .ok (← action)
  catch error =>
    return .error (inputError error)

/-- Nothing to read. -/
def noInputs : Inputs := ⟨.error .notFound, fun _ => .error .notFound⟩

/-- Reads the one input that the arguments name, unless the run fails before it needs any. -/
def gather (list : List String) : IO Inputs := do
  match Arguments.ofList list with
  | .error _ => return noInputs
  | .ok arguments =>
    match Expr.parse arguments.expression, arguments.file with
    | .error _, _ => return noInputs
    | .ok _, some path =>
      let content ← attempt (IO.FS.readBinFile path)
      return { noInputs with file := fun _ => content }
    | .ok _, none =>
      let content ← attempt (do (← IO.getStdin).readBinToEnd)
      return { noInputs with standard := content }

end TreeQuery.CommandLine

open TreeQuery.CommandLine in
def main (arguments : List String) : IO UInt32 := do
  let outcome := run arguments (← gather arguments)
  IO.print outcome.stdout
  IO.eprint outcome.stderr
  return outcome.exit.toUInt32
