import CodeConcepts.Config
import CodeConcepts.Files.FileTree

/-!
# Source files of a project

All TypeScript files below the root, ordered by path. The directories are walked through from the
root down; hidden ones and those of installed packages are not entered. Declaration files are no
sources, and the configuration may leave out more.
-/

namespace CodeConcepts.Sources

/-- Extensions of TypeScript files. -/
def extensions : List String := ["ts", "tsx", "mts", "cts"]

/-- Whether a file of a name holds declarations only. -/
def isDeclarationName (name : String) : Bool :=
  [".d.ts", ".d.mts", ".d.cts"].any fun e => Text.endsWith e name

/-- Whether a path is that of a source. -/
def isSource (p : Path) : Bool :=
  !isDeclarationName (p.fileName?.getD "") && extensions.contains (p.extension?.getD "")

/-- Whether a file of a name is a test: the part behind the first dot says so. -/
def isTestName (name : String) : Bool :=
  let rest := String.ofList (name.toList.dropWhile (· ≠ '.'))
  Text.startsWith ".test." rest || Text.startsWith ".spec." rest

/-- Whether a directory of a name is not entered. -/
def isSkipped (name : String) : Bool := name.toList.head? = some '.' || name == "node_modules"

/-- Whether the configuration keeps a source of a project. -/
def isKept (c : Config) (root p : Path) : Bool :=
  !c.excludes (p.relativeTo root).text &&
    (c.includesTests || !isTestName (p.fileName?.getD ""))

/-- Walks through the directory at a place, down to a depth, and lists the files it comes to by the
names that lead to them from there. -/
def walk (t : FileTree) (place : List String) : Nat → List (List String)
  | 0 => []
  | depth + 1 => (t.entries place).flatMap fun name =>
    let here := place ++ [name]
    let itself := if (t.fileAt? here).isSome then [[]] else []
    let below := if t.isDirectoryAt here && !isSkipped name then walk t here depth else []
    (itself ++ below).map (name :: ·)

/-- The files below a place, without those in directories that are not entered, by the names that
lead to them from there. The place itself is entered whatever its name is; if it is a file, it is
the only one. -/
def filesBelow (t : FileTree) (place : List String) : List (List String) :=
  if t.isDirectoryAt place then walk t place t.depth else [[]]

/-- The sources of the project at a root; none at all if there is no such root. A root that is a
file has itself as its only candidate. -/
def collect? (t : FileTree) (c : Config) (root : Path) : Option (List Path) := do
  let place ← t.locate? root
  let paths := (filesBelow t place).map fun rest => (⟨root.absolute, root.parts ++ rest⟩ : Path)
  return (paths.filter fun p => isSource p && isKept c root p).mergeSort Path.le

end CodeConcepts.Sources
