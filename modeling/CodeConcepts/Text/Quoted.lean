import CodeConcepts.Text.Blank

/-!
# Quoted texts

What stands between the quotes of a string literal.
-/

namespace CodeConcepts.Text

/-- The content of a string literal: blanks around it and the first and last character, its
quotes, are dropped. A text of less than two bytes has no quotes to drop. -/
def quotedContent (s : String) : String :=
  let inner := trim s
  if 2 ≤ inner.utf8ByteSize then String.ofList (inner.toList.drop 1).dropLast else inner

/-- A name that may be written as a string literal: its content if it starts with a quote. -/
def plainName (s : String) : String :=
  match s.toList with
  | '"' :: _ => quotedContent s
  | '\'' :: _ => quotedContent s
  | _ => s

end CodeConcepts.Text
