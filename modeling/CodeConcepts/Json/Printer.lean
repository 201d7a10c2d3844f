import CodeConcepts.Json.Basic
import CodeConcepts.Number.Layout

/-!
# Writing JSON

Compact, or indented by two blanks a level. Only quotes, backslashes and control characters are
escaped. A double keeps a point or an exponent, so that it does not read back as an integer.
-/

namespace CodeConcepts.Json

/-- Doubles are positional from 0.00001 up to 10^16 and have a signed exponent outside. -/
def numberLayout : NumberLayout := ⟨-5, 16, "+"⟩

/-- How a value is set out. -/
inductive Style where
  | compact
  | indented
deriving DecidableEq, Repr

/-- What separates the parts of arrays and objects at a level. -/
def Style.gap : Style → Nat → List Char
  | .compact, _ => []
  | .indented, level => '\n' :: List.replicate (2 * level) ' '

/-- What separates a name from its value. -/
def Style.colon : Style → List Char
  | .compact => [':']
  | .indented => [':', ' ']

/-- A hexadecimal digit. -/
def hexDigit (n : Nat) : Char := Nat.digitChar n

/-- A character of a string, escaped where it has to be. -/
def escape (c : Char) : List Char :=
  if c = '"' then ['\\', '"']
  else if c = '\\' then ['\\', '\\']
  else if c = '\x08' then ['\\', 'b']
  else if c = '\x0c' then ['\\', 'f']
  else if c = '\n' then ['\\', 'n']
  else if c = '\r' then ['\\', 'r']
  else if c = '\t' then ['\\', 't']
  else if c.toNat < 0x20 then ['\\', 'u', '0', '0', hexDigit (c.toNat / 16), hexDigit (c.toNat % 16)]
  else [c]

/-- A string in quotes. -/
def quote (s : String) : List Char := '"' :: (s.toList.flatMap escape ++ ['"'])

/-- An integer in decimal digits. -/
def integer : Int → List Char
  | .ofNat n => NumberLayout.digitsOf n
  | .negSucc n => '-' :: NumberLayout.digitsOf (n + 1)

mutual

/-- The characters of a value whose first line starts at a level. -/
def write (style : Style) (level : Nat) : Json → List Char
  | .null => ['n', 'u', 'l', 'l']
  | .bool true => ['t', 'r', 'u', 'e']
  | .bool false => ['f', 'a', 'l', 's', 'e']
  | .int n => integer n
  | .double x => (numberLayout.render x).toList
  | .string s => quote s
  | .array [] => ['[', ']']
  | .array (j :: js) =>
    '[' :: style.gap (level + 1) ++ write style (level + 1) j ++
      (writeItems style (level + 1) js ++ style.gap level ++ [']'])
  | .object [] => ['\x7b', '\x7d']
  | .object ((n, j) :: ms) =>
    '\x7b' :: style.gap (level + 1) ++ quote n ++ style.colon ++ write style (level + 1) j ++
      (writeMembers style (level + 1) ms ++ style.gap level ++ ['\x7d'])

/-- The items after the first one. -/
def writeItems (style : Style) (level : Nat) : List Json → List Char
  | [] => []
  | j :: js => ',' :: style.gap level ++ write style level j ++ writeItems style level js

/-- The members after the first one. -/
def writeMembers (style : Style) (level : Nat) : List (String × Json) → List Char
  | [] => []
  | (n, j) :: ms =>
    ',' :: style.gap level ++ quote n ++ style.colon ++ write style level j ++
      writeMembers style level ms

end

/-- The text of a value. -/
def render (style : Style) (j : Json) : String := String.ofList (write style 0 j)

end CodeConcepts.Json
