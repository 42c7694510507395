namespace TreeQuery.CommandLine

/-- The syntax of a tree. -/
inductive InputFormat where
  | json
  | xml
  deriving DecidableEq, Repr

namespace InputFormat

def all : List InputFormat := [json, xml]

def name : InputFormat → String
  | json => "json"
  | xml => "xml"

def ofName? (name : String) : Option InputFormat := all.find? fun format => format.name = name

/-- The parts of a path between slashes, without those that stay where they are. -/
def pathParts (path : List Char) : List (List Char) :=
  (path.splitOn '/').filter fun part => part ≠ [] ∧ part ≠ ['.']

/-- The part of a file's name behind its last dot, if anything stands before that dot. -/
def extension? (path : String) : Option (List Char) := do
  let file ← (pathParts path.toList).getLast?
  if file = ['.', '.'] then none
  else
    match file.reverse.dropWhile (· ≠ '.') with
    | [] | ['.'] => none
    | _ => some (file.reverse.takeWhile (· ≠ '.')).reverse

/-- The syntax of a file by its extension in either case; JSON unless that is `xml`. -/
def detect (path : Option String) : InputFormat :=
  match path.bind extension? with
  | some found => if found.map Char.toLower = ['x', 'm', 'l'] then xml else json
  | none => json

end InputFormat

/-- Why an input cannot be read. -/
inductive InputError where
  | notFound
  | notADirectory
  | isADirectory
  | nameTooLong
  /-- The bytes are not UTF-8. -/
  | notText
  /-- Anything else, in the words of the system. -/
  | other (message : String)
  deriving DecidableEq, Repr

def InputError.message : InputError → String
  | notFound => "No such file or directory (os error 2)"
  | notADirectory => "Not a directory (os error 20)"
  | isADirectory => "Is a directory (os error 21)"
  | nameTooLong => "File name too long (os error 36)"
  | notText => "stream did not contain valid UTF-8"
  | other message => message

/-- What can be read: the standard input, and files by their paths. -/
structure Inputs where
  standard : Except InputError ByteArray
  file : String → Except InputError ByteArray

/-- The text of a file, or of the standard input where there is no path. -/
def Inputs.text (inputs : Inputs) (path : Option String) : Except InputError String := do
  let bytes ← match path with
    | some path => inputs.file path
    | none => inputs.standard
  match String.fromUTF8? bytes with
  | some text => pure text
  | none => .error .notText

/-- A directory with plain files in it and nothing known around it. -/
structure Folder where
  files : List (String × ByteArray)

namespace Folder

/-- Where a walk along a path has come to. -/
inductive Location where
  | inside
  | outside
  | file (content : ByteArray)

/-- Goes on by one part of a path. -/
def enter (folder : Folder) (part : String) : Location → Except InputError Location
  | .file _ => .error .notADirectory
  | .inside =>
    if part = "" ∨ part = "." then .ok .inside
    else if part = ".." then .ok .outside
    else if 255 < part.utf8ByteSize then .error .nameTooLong
    else
      match folder.files.lookup part with
      | some content => .ok (.file content)
      | none => .error .notFound
  | .outside =>
    if part = "" ∨ part = "." ∨ part = ".." then .ok .outside
    else if 255 < part.utf8ByteSize then .error .nameTooLong
    else .error .notFound

/-- A whole path has fewer bytes than this. -/
def pathLimit : Nat := 4096

/-- The content of the file that a path names from inside the folder. -/
def read (folder : Folder) (path : String) : Except InputError ByteArray := do
  if path = "" then .error .notFound
  if pathLimit ≤ path.utf8ByteSize then .error .nameTooLong
  let parts := (path.toList.splitOn '/').map String.ofList
  let start := if path.toList.head? = some '/' then Location.outside else .inside
  match ← parts.foldlM (fun place part => folder.enter part place) start with
  | .file content => pure content
  | _ => .error .isADirectory

end Folder

end TreeQuery.CommandLine
