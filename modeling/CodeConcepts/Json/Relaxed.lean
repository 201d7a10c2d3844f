import CodeConcepts.Text.Blank

/-!
# Relaxed JSON

JSON texts written by hand often have comments and a comma behind the last element. `relax` drops
both and leaves strings as they are. A comma counts as superfluous if nothing but blanks stands
between it and the closing bracket.
-/

namespace CodeConcepts.Json

/-- What the characters at a place belong to. -/
inductive Region where
  | text
  | string
  /-- Behind a backslash in a string. -/
  | escape
  | lineComment
  /-- In front of the star that opens a comment. -/
  | opening
  /-- In a comment; the flag says whether the last character was a star. -/
  | comment (star : Bool)
deriving DecidableEq, Repr

/-- Whether a closing bracket is the first thing behind blanks. -/
def closes (cs : List Char) : Bool :=
  match cs.dropWhile Text.isBlank with
  | c :: _ => c == '}' || c == ']'
  | [] => false

/-- Drops comments and superfluous commas from the rest of a text. -/
def relaxFrom : Region → List Char → List Char
  | _, [] => []
  | .text, c :: cs =>
    if c = '"' then c :: relaxFrom .string cs
    else if c = '/' ∧ cs.head? = some '/' then relaxFrom .lineComment cs
    else if c = '/' ∧ cs.head? = some '*' then relaxFrom .opening cs
    else if c = ',' ∧ closes cs then relaxFrom .text cs
    else c :: relaxFrom .text cs
  | .string, c :: cs =>
    c :: relaxFrom (if c = '\\' then .escape else if c = '"' then .text else .string) cs
  | .escape, c :: cs => c :: relaxFrom .string cs
  | .lineComment, c :: cs =>
    if c = '\n' then c :: relaxFrom .text cs else relaxFrom .lineComment cs
  | .opening, _ :: cs => relaxFrom (.comment false) cs
  | .comment star, c :: cs =>
    if star ∧ c = '/' then relaxFrom .text cs else relaxFrom (.comment (c = '*')) cs

/-- Drops comments and superfluous commas from a text. -/
def relax (s : String) : String := String.ofList (relaxFrom .text s.toList)

end CodeConcepts.Json
