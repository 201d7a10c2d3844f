import CodeConcepts.Files.Path
import CodeConcepts.Syntax.Rows

/-!
# File trees

The files a run may look at, each with its content and, if it is a source, the rows of its syntax
tree. Directories exist as far as files lie in them or they are listed.
-/

namespace CodeConcepts

/-- A file. -/
structure StoredFile where
  /-- The names that lead to the file from the root of the tree. -/
  path : List String
  content : ByteArray
  /-- The nodes of its syntax tree. -/
  rows : List Syntax.Row

/-- A tree of files. -/
structure FileTree where
  /-- Directories that exist whether files lie in them or not. -/
  directories : List (List String)
  files : List StoredFile

namespace FileTree

/-- The file at a place. -/
def fileAt? (t : FileTree) (place : List String) : Option StoredFile :=
  t.files.find? fun f => f.path == place

/-- Whether there is a directory at a place. -/
def isDirectoryAt (t : FileTree) (place : List String) : Bool :=
  t.directories.any (fun d => place.isPrefixOf d) ||
    t.files.any fun f => place.isPrefixOf f.path && decide (place.length < f.path.length)

/-- The names of what lies in the directory at a place, each of them once. -/
def entries (t : FileTree) (place : List String) : List String :=
  ((t.files.map (·.path) ++ t.directories).filterMap fun path =>
    if place <+: path then (path.drop place.length).head? else none).eraseDups

/-- The number of names on the longest path of a file. -/
def depth (t : FileTree) : Nat := (t.files.map fun f => f.path.length).foldr max 0

/-- Goes from a directory along some parts; only directories can be left again. -/
def follow (t : FileTree) (place : List String) : List String → Option (List String)
  | [] => some place
  | part :: parts =>
    if t.isDirectoryAt place then follow t (Path.step place part) parts else none

/-- The place that an absolute path leads to, if something is there. -/
def locate? (t : FileTree) (p : Path) : Option (List String) :=
  (t.follow [] p.parts).filter fun place => t.isDirectoryAt place || (t.fileAt? place).isSome

/-- The place that the text of an absolute path leads to, which is a directory if the text asks for
one. -/
def locateText? (t : FileTree) (s : String) : Option (List String) :=
  (t.locate? (.ofText s)).filter fun place => t.isDirectoryAt place || !Path.asksForDirectory s

/-- The file that an absolute path leads to. -/
def file? (t : FileTree) (p : Path) : Option StoredFile := (t.locate? p).bind t.fileAt?

/-- Whether an absolute path leads to a file. -/
def isFile (t : FileTree) (p : Path) : Bool := (t.file? p).isSome

/-- The text of the file at a path, if there is one and it is UTF-8. -/
def readText? (t : FileTree) (p : Path) : Option String :=
  (t.file? p).bind fun f => String.fromUTF8? f.content

end FileTree

end CodeConcepts
