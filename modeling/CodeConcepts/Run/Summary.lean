import CodeConcepts.Run.Extraction

/-!
# The summary of a run

What is printed when a run is over: counts of files, counts of concepts of each kind, the files that
failed, and where the model has been written.
-/

namespace CodeConcepts.Extraction

/-- A text filled up with blanks to a width. -/
def padded (width : Nat) (s : String) : String :=
  s ++ String.ofList (List.replicate (width - s.length) ' ')

/-- The line that counts files. -/
def countLine (e : Extraction) : String :=
  "  files: " ++ toString e.processed ++ " processed, " ++ toString e.withoutProgram ++
    " without program, " ++ toString e.failures.length ++ " failed"

/-- The line that counts the concepts of a kind; kinds without concepts have none. -/
def kindLine? (e : Extraction) (k : Kind) : Option String :=
  let n := (e.model.get k).length
  if n = 0 then none else some ("  " ++ padded 24 k.id ++ " " ++ toString n)

/-- The line of a file that failed. -/
def failureLine (root : Path) (failure : Path × String) : String :=
  "  ✗ " ++ (failure.1.relativeTo root).text ++ ": " ++ failure.2

/-- The line that says where the model has been written. -/
def outputLine : Option Path → String
  | some p => "  → " ++ p.text
  | none => "  output not written"

/-- The lines of the summary. -/
def summaryLines (e : Extraction) (root : Path) (output : Option Path) : List String :=
  ["", "lce-ts " ++ root.text, e.countLine] ++ Kind.all.filterMap e.kindLine? ++
    e.failures.map (failureLine root) ++ [outputLine output]

/-- The text of the summary. -/
def summary (e : Extraction) (root : Path) (output : Option Path) : String :=
  String.join ((e.summaryLines root output).map (· ++ "\n"))

end CodeConcepts.Extraction
