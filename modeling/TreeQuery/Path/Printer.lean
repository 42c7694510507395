import TreeQuery.Path.Expr

namespace TreeQuery

/-- The written form of a node test. -/
def NodeTest.written : NodeTest → List Char
  | any => ['*']
  | named name => name.toList

/-- A value between single quotes, or between double quotes if it has a single one. -/
def writtenValue (value : List Char) : List Char :=
  if '\'' ∈ value then '"' :: value ++ ['"'] else '\'' :: value ++ ['\'']

mutual
/-- The written form of an expression. -/
def Expr.written : Expr → List Char
  | .path absolute steps => (if absolute then ['/'] else []) ++ Step.writtenAll steps
  | .union branches => Expr.writtenAll branches
/-- Branches with bars between them. -/
def Expr.writtenAll : List Expr → List Char
  | [] => []
  | [e] => e.written
  | e :: f :: es => e.written ++ [' ', '|', ' '] ++ Expr.writtenAll (f :: es)
/-- The written form of a step. -/
def Step.written : Step → List Char
  | .mk axis test predicates =>
    axis.name.toList ++ [':', ':'] ++ test.written ++ Predicate.writtenAll predicates
/-- Steps with slashes between them. -/
def Step.writtenAll : List Step → List Char
  | [] => []
  | [s] => s.written
  | s :: t :: ss => s.written ++ ['/'] ++ Step.writtenAll (t :: ss)
/-- The written form of a predicate, without its brackets. -/
def Predicate.written : Predicate → List Char
  | .attribute name value => '@' :: name.toList ++ ['='] ++ writtenValue value.toList
  | .position number => Nat.toDigits 10 number
  | .nested e => e.written
  | .function name => '?' :: name.toList
  | .either p q => p.written ++ [' ', 'o', 'r', ' '] ++ q.written
/-- Predicates in brackets. -/
def Predicate.writtenAll : List Predicate → List Char
  | [] => []
  | p :: ps => '[' :: p.written ++ [']'] ++ Predicate.writtenAll ps
end

instance : ToString NodeTest := ⟨fun t => String.ofList t.written⟩
instance : ToString Expr := ⟨fun e => String.ofList e.written⟩
instance : ToString Step := ⟨fun s => String.ofList s.written⟩
instance : ToString Predicate := ⟨fun p => String.ofList p.written⟩

end TreeQuery
