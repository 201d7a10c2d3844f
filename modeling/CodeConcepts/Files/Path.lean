import CodeConcepts.Text.Affix
import CodeConcepts.Text.Segments

/-!
# Paths

A path is absolute or relative and has a list of parts; empty parts and `.` do not occur in it.
`Path.normalise` also removes `..`, together with the part before it, without looking at any file.
-/

namespace CodeConcepts

/-- A path. -/
structure Path where
  absolute : Bool
  parts : List String
deriving DecidableEq, Repr

namespace Path

/-- The path that a text describes. -/
def ofText (s : String) : Path where
  absolute := s.toList.head? = some '/'
  parts := (Text.segments '/' s).filter fun p => p ≠ "" ∧ p ≠ "."

/-- Whether a text asks for a directory: it ends in `/` or in the part `.`. -/
def asksForDirectory (s : String) : Bool := ["", "."].contains ((Text.segments '/' s).getLastD "")

/-- The text of a path. -/
def text (p : Path) : String :=
  let joined := Text.join '/' p.parts
  if p.absolute then "/" ++ joined else joined

/-- A text with every backslash turned into a slash. -/
def slashed (s : String) : String :=
  String.ofList (s.toList.map fun c => if c = '\\' then '/' else c)

/-- The text of a path in which only slashes divide the parts. -/
def display (p : Path) : String := slashed p.text

/-- A path as seen from another one. -/
def join (a b : Path) : Path := if b.absolute then b else ⟨a.absolute, a.parts ++ b.parts⟩

/-- Goes on from some parts by one more: `.` stays where it is and `..` goes back by one. -/
def step (parts : List String) (part : String) : List String :=
  if part = "." then parts else if part = ".." then parts.dropLast else parts ++ [part]

/-- The path without `..`; at the start there is nothing to go back to. -/
def normalise (p : Path) : Path := ⟨p.absolute, p.parts.foldl step []⟩

/-- The path without its last part; above the root there is nothing, not even the root. -/
def parent (p : Path) : Path := ⟨p.absolute && !p.parts.isEmpty, p.parts.dropLast⟩

/-- The last part, unless it is `..`. -/
def fileName? (p : Path) : Option String := p.parts.getLast?.filter (· ≠ "..")

/-- What follows the last dot of a name; a dot at the start does not count. -/
def extensionOf? (name : String) : Option String :=
  match (Text.segments '.' name).reverse with
  | [] => none
  | [_] => none
  | [_, ""] => none
  | last :: _ => some last

/-- The extension of the last part. -/
def extension? (p : Path) : Option String := p.fileName?.bind extensionOf?

/-- The parts below a root, if the path lies there. -/
def partsBelow? (root : Path) (p : Path) : Option (List String) :=
  if root.absolute = p.absolute ∧ root.parts <+: p.parts then some (p.parts.drop root.parts.length)
  else none

/-- The path relative to a root; a path elsewhere stays as it is. -/
def relativeTo (p root : Path) : Path :=
  match partsBelow? root p with
  | some parts => ⟨false, parts⟩
  | none => p

/-- Whether some parts come before others or are the same: the first difference decides. -/
def partsLe : List String → List String → Bool
  | [], _ => true
  | _ :: _, [] => false
  | a :: as, b :: bs => decide (a < b) || (a == b && partsLe as bs)

/-- The order of paths, part by part. -/
def le (p q : Path) : Bool := partsLe p.parts q.parts

end Path

end CodeConcepts
