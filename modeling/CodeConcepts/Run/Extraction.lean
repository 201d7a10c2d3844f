import CodeConcepts.Files.Source
import CodeConcepts.Model.Passes
import CodeConcepts.Model.Unify
import CodeConcepts.Run.Program
import CodeConcepts.Run.Sources

/-!
# Extraction of a project

The sources of a project are read one after the other, and their models are merged onto the record
of the project. A source that cannot be used is noted and left out. The merged model is unified
once more and then completed.
-/

namespace CodeConcepts

/-- Why a file contributes nothing. -/
inductive FileFault where
  | source (fault : SourceFault)
  | extraction (fault : Extract.Fault)
  | violation (violation : Violation)

/-- The text of a fault. -/
def FileFault.message : FileFault → String
  | .source e => e.message
  | .extraction e => e.message
  | .violation v => v.message

/-- What became of a source. -/
inductive FileStatus where
  /-- It contributed a number of concepts. -/
  | processed (concepts : Nat)
  /-- It is not part of the program. -/
  | noProgram
  | failed (reason : String)
deriving DecidableEq, Repr

/-- A source and what became of it. -/
structure FileOutcome where
  path : Path
  status : FileStatus
deriving DecidableEq, Repr

/-- The outcome of a run. -/
structure Extraction where
  model : Model
  /-- What became of each source, in the order in which they were read. -/
  files : List FileOutcome

/-- Why a run has no outcome. -/
inductive RunFault where
  /-- There is nothing at the root. -/
  | inaccessible (root : String)
  | violation (violation : Violation)

/-- The text of a fault. -/
def RunFault.message : RunFault → String
  | .inaccessible root => "cannot access project root " ++ root
  | .violation v => v.message

namespace Extraction

/-- What a run works on. -/
structure Setting where
  tree : FileTree
  config : Config
  program : Program
  table : List Extract.Extractor
  root : Path

/-- The source at a path, if it belongs to the program. -/
def source? (s : Setting) (path : Path) : Except SourceFault (Option Source) :=
  if s.program.contains (path.relativeTo s.root).display then
    (Source.read s.tree s.root path).map some
  else .ok none

/-- The model of the source at a path relative to the root, if it belongs to the program. -/
def fileModel? (s : Setting) (path : Path) : Except FileFault (Option Model) :=
  match source? s path with
  | .error e => .error (.source e)
  | .ok none => .ok none
  | .ok (some source) =>
    match source.model s.table with
    | .error e => .error (.extraction e)
    | .ok m =>
      match m.unify s.root.text with
      | .error v => .error (.violation v)
      | .ok m => .ok (some m)

/-- Reads one more source. -/
def addFile (s : Setting) (e : Extraction) (path : Path) : Extraction :=
  match fileModel? s path with
  | .ok (some m) => ⟨e.model.merge m, e.files ++ [⟨path, .processed m.size⟩]⟩
  | .ok none => ⟨e.model, e.files ++ [⟨path, .noProgram⟩]⟩
  | .error fault => ⟨e.model, e.files ++ [⟨path, .failed fault.message⟩]⟩

/-- The model that holds nothing but the project. -/
def seed (root : Path) : Model := .ofConcepts [⟨.project, ⟨root.display⟩⟩]

/-- Reads all sources of a list. -/
def ofFiles (s : Setting) (paths : List Path) : Extraction :=
  paths.foldl (addFile s) ⟨seed s.root, []⟩

/-- Unifies and completes the merged model. -/
def finish (e : Extraction) : Except Violation Extraction := do
  let m ← e.model.unify ""
  return { e with model := ← m.complete }

/-- Extracts the project whose root is at an absolute path. -/
def run (tree : FileTree) (config : Config) (table : List Extract.Extractor) (root : String) :
    Except RunFault Extraction :=
  match tree.locateText? root with
  | none => .error (.inaccessible root)
  | some place =>
    let root : Path := ⟨true, place⟩
    let s : Setting := ⟨tree, config, Program.load tree root, table, root⟩
    match (ofFiles s ((Sources.collect? tree config root).getD [])).finish with
    | .error v => .error (.violation v)
    | .ok e => .ok e

/-! ## Counts -/

/-- Number of sources that contributed. -/
def processed (e : Extraction) : Nat :=
  e.files.countP fun f => match f.status with
    | .processed _ => true
    | _ => false

/-- Number of sources outside of the program. -/
def withoutProgram (e : Extraction) : Nat := e.files.countP (·.status == .noProgram)

/-- The sources that failed, each with the reason. -/
def failures (e : Extraction) : List (Path × String) :=
  e.files.filterMap fun f => match f.status with
    | .failed reason => some (f.path, reason)
    | _ => none

end Extraction

end CodeConcepts
