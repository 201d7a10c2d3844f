import CodeConcepts.Extract.File
import CodeConcepts.Files.Specifier
import CodeConcepts.Scope.Analysis

/-!
# Sources

A source file is read, its tree is checked, and its scopes are analysed. A tree that is too deep is
refused before its syntax errors are looked for.
-/

namespace CodeConcepts

/-- Why a source file cannot be used. -/
inductive SourceFault where
  | unreadable
  | noTree
  | tooDeep (limit : Nat)
  /-- A syntax error; lines and columns count from one. -/
  | syntaxError (line column : Nat)
deriving DecidableEq, Repr

/-- The text of a fault. -/
def SourceFault.message : SourceFault → String
  | .unreadable => "failed to read"
  | .noTree => "parser produced no tree"
  | .tooDeep limit => (Extract.Fault.tooDeep limit).message
  | .syntaxError line column => "syntax error at " ++ toString line ++ ":" ++ toString column

/-- A source file that is ready for extraction. -/
structure Source where
  origin : Extract.Origin
  tree : Syntax.Tree Note

namespace Source

/-- The tree of a file, if it is neither too deep nor faulty. -/
def parse (f : StoredFile) : Except SourceFault (Syntax.Tree Unit) :=
  match Syntax.Tree.ofRows? f.content f.rows with
  | none => .error .noTree
  | some t =>
    if t.exceedsDepth Extract.depthLimit then .error (.tooDeep Extract.depthLimit)
    else
      match t.firstFault? with
      | some p => .error (.syntaxError (p.row + 1) (p.column + 1))
      | none => .ok t

/-- What is known of a file of a project beside its tree. -/
def originOf (files : FileTree) (root path : Path) : Extract.Origin where
  module := .ofModule path.text
  path := "./" ++ (path.relativeTo root).display
  resolve := Specifier.resolve files path.parent

/-- Reads a file of a project. -/
def read (files : FileTree) (root path : Path) : Except SourceFault Source :=
  match files.file? path with
  | none => .error .unreadable
  | some f =>
    match parse f with
    | .error e => .error e
    | .ok t =>
      let o := originOf files root path
      .ok ⟨o, analyse o.resolve o.module t⟩

/-- The model of a source file. -/
def model (s : Source) (table : List Extract.Extractor) : Except Extract.Fault Model :=
  Extract.fileModel table s.origin s.tree

end Source

end CodeConcepts
