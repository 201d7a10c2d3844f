import CodeConcepts.Files.FileTree
import CodeConcepts.Json.Fields
import CodeConcepts.Number.Numeral

/-!
# Snapshots

A snapshot is a file tree written as JSON: a list of files, each with its path, its content as text
or in hexadecimal digits, and the rows of its syntax tree. A row is the array of depth, kind, flags,
fields, first byte and byte after the last one, and rarely of fields that are filled from further
below. Flag 1 marks named nodes, flag 2 nodes the parser made up.
-/

namespace CodeConcepts.Snapshot

open Json (fields? text? nat? list? optional required)

/-- Fields that are filled from further below, with the numbers of the nodes. -/
def remote? : Json → Option (List (String × Nat))
  | .object members => members.mapM fun m => (nat? m.2).map fun n => (m.1, n)
  | _ => none

/-- The fields named in a text. -/
def roles (s : String) : List String := (Text.segments ',' s).filter (· ≠ "")

/-- A row of a syntax tree. -/
def row? : Json → Option Syntax.Row
  | .array (depth :: kind :: flags :: fields :: start :: stop :: rest) => do
    let flags ← nat? flags
    let remote ← match rest with
      | [] => some []
      | r :: _ => remote? r
    return {
      depth := ← nat? depth
      kind := ← text? kind
      named := flags % 2 = 1
      missing := flags / 2 % 2 = 1
      roles := roles (← text? fields)
      start := ← nat? start
      stop := ← nat? stop
      remote := remote }
  | _ => none

/-- The bytes that pairs of hexadecimal digits stand for. -/
def bytes? : List Char → Option (List UInt8)
  | [] => some []
  | [_] => none
  | a :: b :: cs => do
    let rest ← bytes? cs
    if isDigitOf 16 a && isDigitOf 16 b then return UInt8.ofNat (numeralValue 16 [a, b]) :: rest
    else none

/-- The content of a file; without text and bytes it is empty. -/
def content? (text hex : Option String) : Option ByteArray :=
  match text, hex with
  | some s, _ => some s.toUTF8
  | none, some h => (bytes? h.toList).map fun bs => ⟨bs.toArray⟩
  | none, none => some ByteArray.empty

/-- A file, whose path starts at the given directory. -/
def file? (base : List String) (j : Json) : Option StoredFile := do
  match ← fields? ["path", "text", "hex", "tree"] j with
  | [path, text, hex, tree] =>
    let path ← required text? path
    let content ← content? (← optional text? text) (← optional text? hex)
    let rows ← optional (list? row?) tree
    return ⟨base ++ (Path.ofText path).parts, content, rows.getD []⟩
  | _ => none

/-- The file tree of a snapshot below an existing directory. -/
def fileTree? (base : List String) (j : Json) : Option FileTree := do
  return ⟨[base], ← list? (file? base) j⟩

end CodeConcepts.Snapshot
