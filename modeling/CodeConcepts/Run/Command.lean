import CodeConcepts.Model.Encode
import CodeConcepts.Run.Arguments
import CodeConcepts.Run.Summary

/-!
# The command

Runs an extraction as the arguments ask for it. The model is written below the root of the project;
the exit code tells whether that was possible.
-/

namespace CodeConcepts.Command

/-- What a command leaves behind. -/
structure Outcome where
  code : Nat
  /-- What it prints. -/
  printed : String
  /-- The file it writes. -/
  written : Option (Path × String)

/-- Where the model is written, from the root of the project. -/
def outputPath : Path := .ofText ".reports/jqa/ts-output.json"

/-- Whether a file can be written at a place: nothing around it is a file, and no directory is
there. -/
def canWrite (t : FileTree) (p : Path) : Bool :=
  !t.isDirectoryAt p.parts &&
    t.files.all fun f => !(f.path.isPrefixOf p.parts && decide (f.path.length < p.parts.length))

/-- The exit code of a run that could not start. -/
def failureCode : Nat := 2

/-- The exit code of a run whose model could not be written. -/
def unwrittenCode : Nat := 1

/-- A run that could not start. -/
def failed : Outcome := ⟨failureCode, "", none⟩

/-- The configuration of a run. -/
def configOf (t : FileTree) (directory : Path) (a : Arguments) : Except Config.Fault Config :=
  match a.config with
  | some file =>
    if Path.asksForDirectory file then .error .unreadable
    else Config.ofFile t (directory.join (.ofText file))
  | none => Config.load t (directory.join (.ofText a.path))

/-- Runs the command in a directory. -/
def run (t : FileTree) (directory : Path) (a : Arguments) : Except RunFault Outcome :=
  let root := directory.join (.ofText a.path)
  match t.locate? root with
  | none => .ok failed
  | some place =>
    if t.isDirectoryAt place then
      match configOf t directory a with
      | .error _ => .ok failed
      | .ok config =>
        match Extraction.run t config Extract.Extractor.all root.text with
        | .error fault => .error fault
        | .ok e =>
          let root : Path := ⟨true, place⟩
          let output := root.join outputPath
          let style := if a.pretty || config.prettyPrint then .indented else .compact
          if canWrite t output then
            .ok ⟨0, e.summary root (some output), some (output, e.model.render style)⟩
          else .ok ⟨unwrittenCode, e.summary root none, none⟩
    else .ok failed

end CodeConcepts.Command
