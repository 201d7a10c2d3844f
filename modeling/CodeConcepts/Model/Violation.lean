import CodeConcepts.Concept.Kind
import CodeConcepts.Text.Visible

/-!
# Violations

The conditions every model has to meet, by the way in which they can fail.
-/

namespace CodeConcepts

/-- A condition on models that is not met. -/
inductive Violation where
  /-- A text of a model lists records of a kind that does not exist. -/
  | unknownKind (id : String)
  /-- A text of a model holds something other than a list of records for a kind. -/
  | notAList (id : String)
  /-- Two projects that differ. -/
  | conflictingProjects (first second : String)
  /-- Two records of an identified kind with the same name. -/
  | duplicateName (kind : Kind) (name : QName)
  /-- There is not exactly one project. -/
  | projectCount (found : Nat)
deriving DecidableEq, Repr

/-- What the violation is. -/
def Violation.message : Violation → String
  | .unknownKind id => "model invariant violated: unknown concept kind " ++ Text.visible id
  | .notAList id => "model invariant violated: " ++ id ++ " is not an array"
  | .conflictingProjects a b =>
    "model invariant violated: conflicting project seeds " ++ a ++ " and " ++ b
  | .duplicateName kind name =>
    "model invariant violated: duplicate " ++ kind.id ++ " FQN " ++ name.text
  | .projectCount n =>
    "model invariant violated: expected exactly one project seed, found " ++ toString n

end CodeConcepts
