import CodeConcepts.Files.FileTree
import CodeConcepts.Glob.Match
import CodeConcepts.Json.Fields
import CodeConcepts.Yaml.Node

/-!
# Configuration

A project may have a configuration file at its root. Every setting is optional, unknown settings are
ignored, and no setting may be given twice.
-/

namespace CodeConcepts

/-- The settings of a project. -/
structure Config where
  /-- Whether the model is written with indentation. -/
  prettyPrint : Bool
  /-- Patterns for paths below the root that are left out. -/
  excludedPaths : List String
  /-- Whether test files count as sources; they do if nothing is said. -/
  includeTestFiles : Option Bool
deriving DecidableEq, Repr

namespace Config

/-- The settings of a project that has no configuration file. -/
def standard : Config := ⟨false, [], none⟩

/-- Whether test files are sources. -/
def includesTests (c : Config) : Bool := c.includeTestFiles.getD true

/-- Whether a path below the root is left out. Patterns that cannot be read are skipped. -/
def excludes (c : Config) (path : String) : Bool :=
  Glob.anyAccepts true (Glob.readable c.excludedPaths) path

/-! ## From JSON -/

/-- The settings in a JSON record. -/
def ofJson? (j : Json) : Option Config := do
  match ← Json.fields? ["prettyPrint", "excludedPaths", "includeTestFiles"] j with
  | [pretty, excluded, tests] =>
    return {
      prettyPrint := ← match pretty with
        | some p => Json.bool? p
        | none => some false
      excludedPaths := ← match excluded with
        | some e => Json.list? Json.text? e
        | none => some []
      includeTestFiles := ← Json.optional Json.bool? tests }
  | _ => none

/-! ## From YAML -/

/-- The truth value that a text stands for. -/
def truth? (text : String) : Option Bool :=
  if text ∈ ["true", "True", "TRUE"] then some true
  else if text ∈ ["false", "False", "FALSE"] then some false
  else none

/-- Whether a text stands for nothing. -/
def isNothing (text : String) : Bool := ["null", "Null", "NULL", "~"].contains text

/-- A truth value: a plain scalar, or a literal one that is tagged as such. -/
def bool? : Yaml.Node → Option Bool
  | .scalar .plain _ text => truth? text
  | .scalar .literal (some "tag:yaml.org,2002:bool") text => truth? text
  | _ => none

/-- A truth value that may be missing: a plain scalar without text or one that stands for nothing. -/
def optionalBool? : Yaml.Node → Option (Option Bool)
  | .scalar .plain none text =>
    if text = "" || isNothing text then some none else (truth? text).map some
  | .scalar .plain (some "tag:yaml.org,2002:null") text =>
    if isNothing text then some none else none
  | n => (bool? n).map some

/-- The text of a scalar of any style. -/
def text? : Yaml.Node → Option String
  | .scalar _ _ text => some text
  | _ => none

/-- A list of texts; nothing at all is an empty list. -/
def texts? : Yaml.Node → Option (List String)
  | .sequence items => items.mapM text?
  | .scalar .plain _ "" => some []
  | _ => none

/-- The settings read so far. -/
structure Partial where
  prettyPrint : Option Bool
  excludedPaths : Option (List String)
  includeTestFiles : Option (Option Bool)

/-- Adds a setting to those read so far. -/
def addSetting (p : Partial) (pair : Yaml.Node × Yaml.Node) : Option Partial := do
  match ← text? pair.1 with
  | "prettyPrint" =>
    if p.prettyPrint.isSome then none
    return { p with prettyPrint := ← bool? pair.2 }
  | "excludedPaths" =>
    if p.excludedPaths.isSome then none
    return { p with excludedPaths := ← texts? pair.2 }
  | "includeTestFiles" =>
    if p.includeTestFiles.isSome then none
    return { p with includeTestFiles := some (← optionalBool? pair.2) }
  | _ => return p

/-- The settings in a document. -/
def ofNode? : Yaml.Node → Option Config
  | .mapping pairs => do
    let p ← pairs.foldlM addSetting ⟨none, none, none⟩
    return ⟨p.prettyPrint.getD false, p.excludedPaths.getD [], p.includeTestFiles.getD none⟩
  | .scalar .plain _ "" => some standard
  | _ => none

/-- The settings in a text. -/
def ofText? (s : String) : Option Config := (Yaml.parse? s).bind ofNode?

/-! ## From files -/

/-- Why there is no configuration. -/
inductive Fault where
  /-- The file cannot be read as text. -/
  | unreadable
  | malformed
deriving DecidableEq, Repr

/-- The names of configuration files, the preferred one first. -/
def fileNames : List String := ["lce.yaml", ".lce.yaml"]

/-- The configuration in a file. -/
def ofFile (t : FileTree) (path : Path) : Except Fault Config :=
  match t.readText? path with
  | none => .error .unreadable
  | some text =>
    match ofText? text with
    | some c => .ok c
    | none => .error .malformed

/-- The name of the configuration file at a root, if there is one. -/
def discover? (t : FileTree) (root : Path) : Option String :=
  fileNames.find? fun name => t.isFile (root.join (.ofText name))

/-- The configuration of the project at a root. -/
def load (t : FileTree) (root : Path) : Except Fault Config :=
  match discover? t root with
  | some name => ofFile t (root.join (.ofText name))
  | none => .ok standard

end Config

end CodeConcepts
