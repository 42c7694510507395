import TreeQuery.Path.Token
import TreeQuery.Text.Blank
import TreeQuery.Text.Bytes

/-!
Reading path expressions. Each reader takes the readers of what may stand inside, so the only
recursion is that of whole expressions inside brackets.

A reader that finds nothing leaves the choice to its caller: a list of steps, branches or predicates
then ends before it, and what follows the list is left over.
-/

namespace TreeQuery.Path

variable {bound : Nat}

/-- Reads expressions that are shorter than the text around them. -/
abbrev NestedReader (bound : Nat) := (s : List Char) → s.length < bound → Reading Expr s

/-- Reads what stands between the brackets of a predicate, after the spaces. A body of digits only is
a position and never the name of a node. -/
def readBody (nested : NestedReader bound) (s : List Char) (h : s.length < bound) :
    Reading Predicate s :=
  match s with
  | '@' :: rest => .ofOption .step (takeAttribute ('@' :: rest)) fun _ _ => takeAttribute_shorter
  | '?' :: rest => .ofOption .step (takeFunction ('?' :: rest)) fun _ _ => takeFunction_shorter
  | s =>
    match number : takePosition s with
    | some (digits, rest) =>
      let position := Nat.ofDigitChars 10 digits 0
      if position < positionLimit then
        .read (.position position) rest (takePosition_shorter number)
      else .broken (.positionOutOfRange digits s)
    | none =>
      match nested s h with
      | .read e rest shorter => .read (.nested e) rest shorter
      | .absent stop sought => .absent stop sought
      | .broken cause => .broken cause

/-- Reads a predicate in brackets. -/
def readPredicate (nested : NestedReader bound) : Reader bound Predicate := fun s h =>
  match s with
  | '[' :: inner =>
    have spaces := length_skipSpaces_le inner
    match readBody nested (skipSpaces inner) (by simp only [List.length_cons] at h; omega) with
    | .read p rest shorter =>
      match closing : skipSpaces rest with
      | ']' :: rest' =>
        .read p rest' (by
          have := length_skipSpaces_le rest
          rw [closing] at this
          simp only [List.length_cons] at this ⊢
          omega)
      | _ => .absent (skipSpaces rest) .character
    | .absent stop sought => .absent stop sought
    | .broken cause => .broken cause
  | _ => .absent s .character

/-- Reads the predicates that follow the test of a step. -/
def finishStep (nested : NestedReader bound) (axis : Axis) (test : NodeTest) (s : List Char)
    (h : s.length ≤ bound) : Except Breakage (Several Predicate s × Step) :=
  (several (readPredicate nested) s h).map fun predicates =>
    (predicates, .mk axis test predicates.values)

/-- Reads a step: an axis or a test or both, and predicates. Where the axis allows it, a missing test
accepts every name. -/
def readStep (nested : NestedReader bound) : Reader bound Step := fun s h =>
  match readAxis s with
  | .broken cause => .broken cause
  | .read axis rest shorter =>
    match test : takeTest rest with
    | some (t, rest') =>
      have := takeTest_shorter test
      match finishStep nested axis t rest' (by omega) with
      | .error cause => .broken cause
      | .ok (more, step) => .read step more.rest (by have := more.notLonger; omega)
    | none =>
      if axis.testOmittable then
        match finishStep nested axis .any rest (rest_within h shorter) with
        | .error cause => .broken cause
        | .ok (more, step) => .read step more.rest (by have := more.notLonger; omega)
      else .broken (.missingNodeTest axis)
  | .absent _ _ =>
    match test : takeTest s with
    | some (t, rest) =>
      have shorter := takeTest_shorter test
      match finishStep nested .child t rest (rest_within h shorter) with
      | .error cause => .broken cause
      | .ok (more, step) => .read step more.rest (by have := more.notLonger; omega)
    | none => .absent s .step

/-- Reads a slash and the step behind it. -/
def readNextStep (nested : NestedReader bound) : Reader bound Step := fun s h =>
  match s with
  | '/' :: rest =>
    match readStep nested rest (by simp only [List.length_cons] at h; omega) with
    | .read step rest' shorter => .read step rest' (by simp only [List.length_cons]; omega)
    | .absent stop sought => .absent stop sought
    | .broken cause => .broken cause
  | _ => .absent s .character

/-- Reads steps with slashes between them. -/
def readSteps (nested : NestedReader bound) : Reader bound (List Step) := fun s h =>
  match readStep nested s h with
  | .absent stop sought => .absent stop sought
  | .broken cause => .broken cause
  | .read first rest shorter =>
    match several (readNextStep nested) rest (rest_within h shorter) with
    | .error cause => .broken cause
    | .ok more => .read (first :: more.values) more.rest (by have := more.notLonger; omega)

/-- Reads one path: perhaps a slash, then steps. -/
def readPath (nested : NestedReader bound) : Reader bound Expr := fun s h =>
  match s with
  | '/' :: rest =>
    match readSteps nested rest (by simp only [List.length_cons] at h; omega) with
    | .read steps rest' shorter =>
      .read (.path true steps) rest' (by simp only [List.length_cons]; omega)
    | .absent stop sought => .absent stop sought
    | .broken cause => .broken cause
  | s =>
    match readSteps nested s h with
    | .read steps rest shorter => .read (.path false steps) rest shorter
    | .absent stop sought => .absent stop sought
    | .broken cause => .broken cause

/-- Reads a bar with spaces around it, and the path behind it. -/
def readNextPath (nested : NestedReader bound) : Reader bound Expr := fun s h =>
  have before := length_skipSpaces_le s
  match bar : skipSpaces s with
  | '|' :: rest =>
    have after := length_skipSpaces_le rest
    have whole : rest.length < s.length := by
      rw [bar, List.length_cons] at before
      omega
    match readPath nested (skipSpaces rest) (by omega) with
    | .read e rest' shorter => .read e rest' (by omega)
    | .absent stop sought => .absent stop sought
    | .broken cause => .broken cause
  | _ => .absent (skipSpaces s) .character

/-- Several alternatives as one expression; a single one stays as it is. -/
def combine (first : Expr) : List Expr → Expr
  | [] => first
  | more => .union (first :: more)

/-- Reads paths with bars between them, with `nested` for what stands in brackets. -/
def readBranches (nested : NestedReader bound) : Reader bound Expr := fun s h =>
  match readPath nested s h with
  | .absent stop sought => .absent stop sought
  | .broken cause => .broken cause
  | .read first rest shorter =>
    match several (readNextPath nested) rest (rest_within h shorter) with
    | .error cause => .broken cause
    | .ok more => .read (combine first more.values) more.rest (by have := more.notLonger; omega)

/-- Reads an expression off the front of a text. -/
def readExpr (s : List Char) : Reading Expr s :=
  readBranches (fun t (_ : t.length < s.length) => readExpr t) s (Nat.le_refl _)
termination_by s.length

end TreeQuery.Path

namespace TreeQuery

namespace Expr

open TreeQuery.Path TreeQuery.Text

/-- Reads a whole text, without the white space around it, as an expression. -/
def parse (text : String) : Except PathError Expr :=
  let chars := text.toList
  let offset (rest : List Char) : Nat := byteLength (trimEnd chars) - byteLength rest
  match readExpr (trim chars) with
  | .read e [] _ => .ok e
  | .read _ rest _ => .error (.unreadable text (offset rest) (.leftover (String.ofList rest)))
  | .absent [] _ => .error (.unreadable text (offset []) .unexpectedEnd)
  | .absent rest sought =>
    .error (.unreadable text (offset rest) (.unexpected (String.ofList rest) sought))
  | .broken (.unknownAxis axis) => .error (.unknownAxis text (String.ofList axis))
  | .broken (.missingNodeTest axis) => .error (.missingNodeTest text axis)
  | .broken (.positionOutOfRange digits rest) =>
    .error (.unreadable text (offset rest) (.positionOutOfRange (String.ofList digits)))

/-- Reads each text and joins the expressions as alternatives; a single one stays as it is. -/
def unionOf (texts : List String) : Except PathError Expr := do
  match ← texts.mapM parse with
  | [] => .error .emptyUnion
  | [e] => pure e
  | branches => pure (.union branches)

end Expr

end TreeQuery
