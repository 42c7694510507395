import TreeQuery.Path.Axis

namespace TreeQuery

/-- What a reader looked for and did not find. -/
inductive Sought where
  /-- One certain character. -/
  | character
  /-- At least one character of some kind. -/
  | run
  /-- The two colons behind the name of an axis. -/
  | colons
  /-- An axis or a node test. -/
  | step
  deriving DecidableEq, Repr

/-- The word for it in messages. -/
def Sought.name : Sought → String
  | character => "Char"
  | run => "TakeWhile1"
  | colons => "Tag"
  | step => "Verify"

/-- What is wrong at one place of an expression's text. -/
inductive SyntaxFault where
  /-- An expression ends before this rest of the text. -/
  | leftover (rest : String)
  | unexpectedEnd
  /-- This rest of the text does not start with what it should. -/
  | unexpected (rest : String) (sought : Sought)
  /-- The digits stand for a number of more than 64 bits. -/
  | positionOutOfRange (digits : String)
  deriving DecidableEq, Repr

def SyntaxFault.message : SyntaxFault → String
  | leftover rest => "Parser did not consume all input. Remainder: '" ++ rest ++ "'"
  | unexpectedEnd => "Unexpected end of input"
  | unexpected rest sought => "Unexpected input '" ++ rest ++ "' (" ++ sought.name ++ ")"
  | positionOutOfRange digits => "Position '" ++ digits ++ "' is out of range"

/-- Why a path expression is refused. -/
inductive PathError where
  /-- The text is no expression; `offset` counts its bytes up to the fault. -/
  | unreadable (text : String) (offset : Nat) (fault : SyntaxFault)
  | unknownAxis (text axis : String)
  | missingNodeTest (text : String) (axis : Axis)
  | emptyUnion
  /-- The expression uses functions that are not there. -/
  | missingFunctions (names : List String)
  deriving DecidableEq, Repr

namespace PathError

def message : PathError → String
  | unreadable text offset fault =>
    "Path expression parse error in '" ++ text ++ "' at offset " ++ toString offset ++ ": " ++
      fault.message
  | unknownAxis text axis => "Unsupported axis specifier '" ++ axis ++ "' in '" ++ text ++ "'"
  | missingNodeTest text axis =>
    "Axis '" ++ axis.name ++ "' requires a node test in '" ++ text ++ "'"
  | emptyUnion => "A union path expression needs at least one branch"
  | missingFunctions names =>
    "Function predicate '" ++ ",".intercalate names ++ "' not found in registry"

/-- Whether the expression itself is at fault and not what it is evaluated with. -/
def isAboutText : PathError → Bool
  | missingFunctions _ => false
  | _ => true

end PathError

end TreeQuery
