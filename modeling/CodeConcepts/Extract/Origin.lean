import CodeConcepts.Concept.Declaration
import CodeConcepts.Scope.Lookup

/-!
# The file that is extracted

What extraction knows of a file beside its tree, and the faults that end it.
-/

namespace CodeConcepts.Extract

/-- The file records come from. -/
structure Origin where
  /-- The name of its module. -/
  module : QName
  /-- Its path below the project, which starts with `./`. -/
  path : String
  /-- The module that a specifier in this file denotes. -/
  resolve : String → QName

/-- Where a node stands. -/
def Origin.coordinates (o : Origin) (n : ScopedNode) : Coordinates where
  fileName := o.path
  startLine := n.label.start.row + 1
  startColumn := n.label.start.column + 1
  endLine := n.label.stop.row + 1
  endColumn := n.label.stop.column + 1

/-- Why the records of a file cannot be extracted. -/
inductive Fault where
  /-- A node lacks a part that its kind needs. -/
  | missing (kind : String) (field : String) (line : Nat)
  | tooDeep (limit : Nat)
deriving DecidableEq, Repr

/-- The text of a fault. -/
def Fault.message : Fault → String
  | .missing kind field line =>
    "malformed " ++ kind ++ " at line " ++ toString line ++ ": missing `" ++ field ++ "`"
  | .tooDeep limit => "syntax tree nested deeper than " ++ toString limit ++ " levels"

/-- The fault of a node that lacks a part. -/
def Fault.lacks (n : ScopedNode) (field : String) : Fault :=
  .missing n.kind field (n.label.start.row + 1)

/-- The node that fills a field, which has to be there. -/
def need (n : ScopedNode) (field : String) : Except Fault ScopedNode :=
  match n.field? field with
  | some c => .ok c
  | none => .error (.lacks n field)

/-- The name a declaration has been given. -/
def needName (n : ScopedNode) : Except Fault QName :=
  match ScopedNode.declares? n with
  | some fqn => .ok fqn
  | none => .error (.lacks n "name")

end CodeConcepts.Extract
