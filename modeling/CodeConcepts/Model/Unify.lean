import CodeConcepts.Model.Basic
import CodeConcepts.Model.Violation

/-!
# Unification

While a file is read, its declarations carry the absolute path of the file. Unifying at a root
re-expresses every name of a model relative to it. Unifying at the empty root changes no name and
folds the records of the project into one. Either way no two records of an identified kind may end
up with the same name.
-/

namespace CodeConcepts.Model

/-- A root as unification takes it: with slashes only, and none at the end. -/
def unifyRoot (root : String) : String :=
  String.ofList (Text.dropEndWhile (· == '/')
    (root.toList.map fun c => if c = '\\' then '/' else c))

/-- The projects folded into one, if they agree. -/
def foldProjects : List Project → Except Violation (List Project)
  | [] => .ok []
  | p :: ps =>
    match ps.find? (· ≠ p) with
    | none => .ok [p]
    | some q => .error (.conflictingProjects p.rootPath q.rootPath)

/-- The model, if no name is used twice. -/
def requireDistinct (m : Model) : Except Violation Model :=
  match m.duplicates with
  | [] => .ok m
  | (k, n) :: _ => .error (.duplicateName k n)

/-- The model with all names relative to `root`; for the empty root the model with its projects
folded into one. -/
def unify (root : String) (m : Model) : Except Violation Model :=
  let root := unifyRoot root
  if root.isEmpty then do
    let ps ← foldProjects m.projects
    requireDistinct (m.set .project ps)
  else requireDistinct (mapNames (QName.rebase root) m)

end CodeConcepts.Model
