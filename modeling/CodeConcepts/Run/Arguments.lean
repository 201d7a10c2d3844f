import CodeConcepts.Text.Affix

/-!
# Command-line arguments

The command takes the root of a project and a few options, each at most once. An option is written
in full behind two dashes or, if it has one, by its letter behind a single dash; `--` ends the
options.
-/

namespace CodeConcepts

/-- What is asked for on the command line. -/
structure Arguments where
  /-- The root of the project. -/
  path : String
  pretty : Bool
  /-- A configuration file to be used instead of that of the project. -/
  config : Option String
  noProgress : Bool
deriving DecidableEq, Repr

/-- Why arguments do not ask for a run. -/
inductive Usage where
  | help
  | version
  | missingArgument
  | unknownArgument
  | invalidValue
  /-- An option is given twice. -/
  | repeated
  /-- An option that takes no value is given one. -/
  | superfluousValue
deriving DecidableEq, Repr

namespace Arguments

/-- A value that has been given but not been set yet. It is set when the next argument is accepted,
so that an argument that is refused outright is found first. -/
inductive Waiting where
  | path (value : String)
  /-- A configuration file, whose name may still be to come. -/
  | config (value : Option String)
deriving DecidableEq, Repr

/-- The arguments read so far. -/
structure Reading where
  path : Option String
  pretty : Bool
  config : Option String
  noProgress : Bool
  waiting : Option Waiting
  /-- Whether a root has been given. -/
  rooted : Bool
  /-- Whether options are over. -/
  trailing : Bool
deriving DecidableEq, Repr

namespace Reading

/-- Nothing has been read. -/
def start : Reading := ⟨none, false, none, false, none, false, false⟩

/-- Sets the configuration file. -/
def setConfig (r : Reading) (value : String) : Except Usage Reading :=
  if r.config.isSome then .error .repeated
  else if value = "" then .error .invalidValue
  else .ok { r with config := some value }

/-- Sets the value that waits for it. -/
def settle (r : Reading) : Except Usage Reading :=
  let rest := { r with waiting := none }
  match r.waiting with
  | none => .ok r
  | some (.path value) =>
    if value = "" then .error .invalidValue else .ok { rest with path := some value }
  | some (.config none) => .error .invalidValue
  | some (.config (some value)) => rest.setConfig value

/-- Switches indentation on. -/
def setPretty (r : Reading) : Except Usage Reading :=
  if r.pretty then .error .repeated else .ok { r with pretty := true }

/-- Switches the display of progress off. -/
def setNoProgress (r : Reading) : Except Usage Reading :=
  if r.noProgress then .error .repeated else .ok { r with noProgress := true }

/-- The configuration file is to come. -/
def awaitConfig (r : Reading) : Reading := { r with waiting := some (.config none) }

/-- An option in full, with the value behind its equals sign. -/
def longOption (r : Reading) (name : String) (value : Option String) : Except Usage Reading :=
  match name, value with
  | "config", some value => r.settle >>= (·.setConfig value)
  | "config", none => r.settle.map awaitConfig
  | "pretty", none => r.settle >>= setPretty
  | "no-progress", none => r.settle >>= setNoProgress
  | "help", none => r.settle >>= fun _ => .error .help
  | "version", none => r.settle >>= fun _ => .error .version
  | name, some _ =>
    if ["pretty", "no-progress", "help", "version"].contains name then .error .superfluousValue
    else .error .unknownArgument
  | _, none => .error .unknownArgument

/-- An option by its letter, with what follows the letter. -/
def shortOption (r : Reading) (letter : Char) (rest : List Char) : Except Usage Reading :=
  match letter, rest with
  | 'c', [] => r.settle.map awaitConfig
  | 'c', '=' :: value => r.settle >>= (·.setConfig (String.ofList value))
  | 'c', value => r.settle >>= (·.setConfig (String.ofList value))
  | 'h', _ => r.settle >>= fun _ => .error .help
  | 'V', _ => r.settle >>= fun _ => .error .version
  | _, _ => .error .unknownArgument

/-- An argument that is no option: the root, of which there is one. -/
def plain (r : Reading) (s : String) : Except Usage Reading :=
  if r.rooted then .error .unknownArgument
  else r.settle.map fun r => { r with waiting := some (.path s), rooted := true }

/-- Reads one more argument. -/
def step (r : Reading) (s : String) : Except Usage Reading :=
  if r.trailing then r.plain s
  else
    match s.toList with
    | ['-', '-'] => .ok { r with trailing := true }
    | '-' :: '-' :: cs =>
      let value := match cs.dropWhile (· ≠ '=') with
        | _ :: v => some (String.ofList v)
        | [] => none
      r.longOption (String.ofList (cs.takeWhile (· ≠ '='))) value
    | '-' :: c :: cs => r.shortOption c cs
    | _ =>
      if r.waiting = some (.config none) then .ok { r with waiting := some (.config (some s)) }
      else r.plain s

/-- What is asked for when all arguments have been read. -/
def finish (r : Reading) : Except Usage Arguments :=
  match r.settle with
  | .error u => .error u
  | .ok r =>
    match r.path with
    | some path => .ok ⟨path, r.pretty, r.config, r.noProgress⟩
    | none => .error .missingArgument

end Reading

/-- Reads arguments. -/
def parse (args : List String) : Except Usage Arguments :=
  args.foldlM Reading.step Reading.start >>= Reading.finish

end Arguments

/-- The exit code for arguments that do not ask for a run: asking for help or the version is no
error. -/
def Usage.code : Usage → Nat
  | .help => 0
  | .version => 0
  | _ => 2

end CodeConcepts
