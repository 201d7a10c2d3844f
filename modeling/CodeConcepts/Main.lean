import CodeConcepts.Files.Snapshot
import CodeConcepts.Run.Command

/-!
# The command line

The command runs in the current directory on a snapshot of its files, which comes on standard input.
It prints the summary of the run and writes the model; what goes wrong is told on standard error.
-/

namespace CodeConcepts.CommandLine

/-- How the command is called. -/
def usageText : String :=
  String.intercalate "\n"
    ["Extract declarations, types and dependencies from a TypeScript project.", "",
      "Usage: lce-ts [OPTIONS] <PATH>", "",
      "Arguments:",
      "  <PATH>  Project root directory", "",
      "Options:",
      "      --pretty           Indent the JSON output",
      "  -c, --config <CONFIG>  Path to configuration YAML file (default: lce.yaml at the project root)",
      "      --no-progress      Disable the progress bar",
      "  -h, --help             Print help",
      "  -V, --version          Print version"]

/-- What is told about arguments that do not ask for a run. -/
def usageMessage : Usage → String
  | .help => usageText
  | .version => "lce-ts 0.1.0"
  | .missingArgument => "error: the project root is missing"
  | .unknownArgument => "error: unexpected argument"
  | .invalidValue => "error: a value is missing"
  | .repeated => "error: an option is given twice"
  | .superfluousValue => "error: unexpected value for an option"

/-- What remains of standard input. -/
partial def readRest (input : IO.FS.Stream) (before : String) : IO String := do
  let line ← input.getLine
  if line.isEmpty then return before else readRest input (before ++ line)

/-- Writes the model where the run wants it. -/
def writeOutput : Option (Path × String) → IO Unit
  | none => pure ()
  | some (path, text) => do
    IO.FS.createDirAll path.parent.text
    IO.FS.writeFile path.text text

/-- Runs the command in a directory on the snapshot of its files. -/
def runOn (directory : Path) (snapshot : String) (a : Arguments) : IO UInt32 := do
  match (Json.parse? snapshot.length snapshot).bind (Snapshot.fileTree? directory.parts) with
  | none =>
    IO.eprintln "Error: the snapshot cannot be read"
    return Command.failureCode.toUInt32
  | some tree =>
    match Command.run tree directory a with
    | .error fault =>
      IO.eprintln ("Error: " ++ fault.message)
      return Command.failureCode.toUInt32
    | .ok outcome =>
      writeOutput outcome.written
      IO.print outcome.printed
      return outcome.code.toUInt32

end CodeConcepts.CommandLine

open CodeConcepts CommandLine in
/-- Reads the arguments and runs the command, or tells why it does not. -/
def main (args : List String) : IO UInt32 := do
  match Arguments.parse args with
  | .error usage =>
    if usage.code = 0 then IO.println (usageMessage usage) else IO.eprintln (usageMessage usage)
    return usage.code.toUInt32
  | .ok a =>
    let directory ← IO.currentDir
    let snapshot ← readRest (← IO.getStdin) ""
    runOn (.ofText directory.toString) snapshot a
