import CodeConcepts.Number.Numeral
import CodeConcepts.Text.Affix

/-!
# Characters and places in a YAML text

The line ends of a text are made uniform first: carriage returns and next-line characters become
line feeds. After that every character counts as one column.
-/

namespace CodeConcepts.Yaml

/-- A space or a tab. -/
def isBlank (c : Char) : Bool := c == ' ' || c == '\t'

/-- A line feed, or one of the two separators that are kept in scalars as they are. -/
def isBreak (c : Char) : Bool := c == '\n' || c.toNat == 0x2028 || c.toNat == 0x2029

/-- Whether a blank, a line end or the end of the text comes first. -/
def atBlank : List Char → Bool
  | [] => true
  | c :: _ => isBlank c || isBreak c

/-- Whether a line end or the end of the text comes first. -/
def atBreak : List Char → Bool
  | [] => true
  | c :: _ => isBreak c

/-- Characters that may occur in a text at all. -/
def isAllowed (c : Char) : Bool :=
  let n := c.toNat
  n == 9 || n == 10 || n == 13 || (0x20 ≤ n && n ≤ 0x7e) || n == 0x85 || (0xa0 ≤ n && n ≤ 0xd7ff) ||
    (0xe000 ≤ n && n ≤ 0xfffd) || 0x10000 ≤ n

/-- Letters, digits, `_` and `-`, of which names consist. -/
def isWordChar (c : Char) : Bool := c.isAlphanum || c == '_' || c == '-'

/-- The byte order mark. -/
def byteOrderMark : Char := Char.ofNat 0xfeff

/-- A text with uniform line ends. -/
def uniform : List Char → List Char
  | '\r' :: '\n' :: cs => '\n' :: uniform cs
  | c :: cs => (if c == '\r' || c.toNat == 0x85 then '\n' else c) :: uniform cs
  | [] => []

/-- The characters of a text, if all are allowed; a byte order mark at the start is dropped. -/
def characters? (s : String) : Option (List Char) :=
  let cs := s.toList
  let cs := if cs.head? = some byteOrderMark then cs.tail else cs
  if cs.all isAllowed then some (uniform cs) else none

/-- A place in a text. -/
structure Cursor where
  rest : List Char
  line : Nat
  column : Nat
deriving Repr

namespace Cursor

/-- The place behind the first character. -/
def next (c : Cursor) : Cursor :=
  match c.rest with
  | [] => c
  | ch :: rest => if isBreak ch then ⟨rest, c.line + 1, 0⟩ else ⟨rest, c.line, c.column + 1⟩

/-- The place behind some characters of the same line. -/
def skip (n : Nat) (c : Cursor) : Cursor := ⟨c.rest.drop n, c.line, c.column + n⟩

/-- The place behind the characters that satisfy a condition, none of which ends a line. -/
def skipWhile (p : Char → Bool) (c : Cursor) : Cursor :=
  ⟨c.rest.dropWhile p, c.line, c.column + (c.rest.takeWhile p).length⟩

/-- Whether `---` or `...` stands here alone at the start of a line. -/
def atDocumentMark (c : Cursor) : Bool :=
  c.column == 0 &&
    match c.rest with
    | a :: b :: d :: rest => (a == '-' || a == '.') && a == b && b == d && atBlank rest
    | _ => false

end Cursor

end CodeConcepts.Yaml
