import CodeConcepts.Files.FileTree
import CodeConcepts.Glob.Match
import CodeConcepts.Json.Relaxed
import CodeConcepts.Json.Selection

/-!
# The program of a project

Which files of a project form its program is said in `tsconfig.json` at the root: listed files
belong to it in any case, others if an `include` pattern matches and no `exclude` pattern does.
Without a readable file everything belongs to the program.
-/

namespace CodeConcepts

/-- The files that form a program. -/
structure Program where
  /-- Paths that belong to it in any case. -/
  files : List String
  /-- Patterns of which one has to match; everything matches if there is no list. -/
  included : Option (List Glob)
  /-- Patterns of which none may match. -/
  excluded : List Glob

namespace Program

/-- The program that everything belongs to. -/
def everything : Program := ⟨[], none, []⟩

/-- A path in a list without `./` at its start. -/
def withoutHere (s : String) : String := String.ofList (Text.dropPairs '.' '/' s.toList)

/-- The pattern of an entry. An entry without wildcards whose last name has no dot means a
directory and all it holds. -/
def patternOf (entry : String) : String :=
  let cs := Text.dropEndWhile (· == '/') (Text.dropPairs '.' '/' entry.toList)
  let last := (cs.reverse.takeWhile (· ≠ '/')).reverse
  let text := String.ofList cs
  if cs.any (fun c => c == '*' || c == '?') || last.contains '.' then text else text ++ "/**"

/-- The readable patterns of a list of entries. -/
def globs (entries : List String) : List Glob := Glob.readable (entries.map patternOf)

/-- The program of three lists. A list of files without one of inclusions restricts the program to
these files. -/
def ofLists (files included excluded : Option (List String)) : Program where
  files := (files.getD []).map withoutHere
  included := match included with
    | some entries => some (globs entries)
    | none => if (files.getD []).isEmpty then none else some []
  excluded := globs (excluded.getD [])

/-- Whether a path below the root belongs to the program. -/
def contains (p : Program) (path : String) : Bool :=
  p.files.contains path ||
    (!Glob.anyAccepts false p.excluded path &&
      match p.included with
      | some globs => Glob.anyAccepts false globs path
      | none => true)

/-- The fields that describe a program. -/
def fieldNames : List String := ["files", "include", "exclude"]

/-- The program described in a relaxed JSON text. -/
def ofText? (s : String) : Option Program := do
  match ← Json.select? fieldNames (Json.relax s) with
  | [files, included, excluded] =>
    let entries := Json.optional (Json.list? Json.text?)
    return ofLists (← entries files) (← entries included) (← entries excluded)
  | _ => none

/-- The program of the project at a root. -/
def load (t : FileTree) (root : Path) : Program :=
  ((t.readText? (root.join (.ofText "tsconfig.json"))).bind ofText?).getD everything

end Program

end CodeConcepts
