import CodeConcepts.Yaml.Cursor

/-!
# Scalars

How the text of a scalar is read in its five styles. Blanks and line ends between two words are
gathered in a `Gap` until the next word shows what becomes of them: a single line end is a space,
and of several line ends the first one is dropped.
-/

namespace CodeConcepts.Yaml

/-- How a scalar is written. -/
inductive Style where
  | plain
  | quoted
  | literal
  | folded
deriving DecidableEq, Repr

/-- What stands between two words of a scalar, from the last character to the first. -/
inductive Gap where
  | blanks (cs : List Char)
  /-- Line ends: the first one, unless it was escaped, and those after it. -/
  | breaks (first : Option Char) (more : List Char)
deriving Repr

namespace Gap

/-- No gap. -/
def empty : Gap := .blanks []

/-- The gap with one more blank; blanks at the start of a line do not count. -/
def addBlank (c : Char) : Gap → Gap
  | .blanks cs => .blanks (c :: cs)
  | g => g

/-- The gap with one more line end. -/
def addBreak (c : Char) : Gap → Gap
  | .blanks _ => .breaks (some c) []
  | .breaks first more => .breaks first (c :: more)

/-- What a gap leaves in the text, from the last character to the first. -/
def fold : Gap → List Char
  | .blanks cs => cs
  | .breaks (some '\n') [] => [' ']
  | .breaks (some '\n') more => more
  | .breaks (some c) more => more ++ [c]
  | .breaks none more => more

/-- Whether a line end is in the gap. -/
def hasBreak : Gap → Bool
  | .blanks _ => false
  | .breaks _ _ => true

end Gap

/-! ## Plain scalars -/

/-- A scalar that has been read. -/
structure ReadScalar where
  text : String
  /-- Whether a line end was passed behind its last word. -/
  passedBreak : Bool
  cursor : Cursor

/-- Whether a plain scalar ends in front of these characters. -/
def endsPlain (inFlow : Bool) : List Char → Bool
  | [] => true
  | c :: cs => (c == ':' && atBlank cs) || (inFlow && ",[]\x7b\x7d".toList.contains c)

/-- Whether a colon here is misplaced inside brackets. -/
def hasMisplacedColon (inFlow : Bool) : List Char → Bool
  | ':' :: c :: _ => inFlow && ",?[]\x7b\x7d".toList.contains c
  | _ => false

/-- Reads the rest of a plain scalar. `indent` is the least column of its further lines, `atWord`
says that a word starts here, and `done` is the text so far, from the last character to the first. -/
def plain? (inFlow : Bool) (indent : Int) (done : List Char) (gap : Gap) (atWord : Bool)
    (line column : Nat) : List Char → Option ReadScalar
  | [] => some ⟨String.ofList done.reverse, gap.hasBreak, ⟨[], line, column⟩⟩
  | c :: cs =>
    let stop : ReadScalar := ⟨String.ofList done.reverse, gap.hasBreak, ⟨c :: cs, line, column⟩⟩
    if isBlank c then
      if gap.hasBreak && (column : Int) < indent && c == '\t' then none
      else plain? inFlow indent done (gap.addBlank c) true line (column + 1) cs
    else if isBreak c then plain? inFlow indent done (gap.addBreak c) true (line + 1) 0 cs
    else if atWord &&
        ((!inFlow && gap.hasBreak && (column : Int) < indent) || c == '#' ||
          Cursor.atDocumentMark ⟨c :: cs, line, column⟩) then some stop
    else if hasMisplacedColon inFlow (c :: cs) then none
    else if endsPlain inFlow (c :: cs) then some stop
    else plain? inFlow indent (c :: (gap.fold ++ done)) .empty false line (column + 1) cs

/-! ## Quoted scalars -/

/-- What comes next inside a quoted scalar. -/
inductive QuoteMode where
  | text
  /-- A quote that may be the first of two. -/
  | quote
  | escape
  /-- Hexadecimal digits of an escaped character, with their number and the value so far. -/
  | digits (left : Nat) (value : Nat)

/-- The character that a letter behind a backslash stands for. -/
def escaped? (c : Char) : Option Char :=
  match c with
  | '0' => some (Char.ofNat 0)
  | 'a' => some (Char.ofNat 7)
  | 'b' => some (Char.ofNat 8)
  | 't' => some '\t'
  | '\t' => some '\t'
  | 'n' => some '\n'
  | 'v' => some (Char.ofNat 11)
  | 'f' => some (Char.ofNat 12)
  | 'r' => some '\r'
  | 'e' => some (Char.ofNat 27)
  | ' ' => some ' '
  | '"' => some '"'
  | '/' => some '/'
  | '\\' => some '\\'
  | 'N' => some (Char.ofNat 0x85)
  | '_' => some (Char.ofNat 0xa0)
  | 'L' => some (Char.ofNat 0x2028)
  | 'P' => some (Char.ofNat 0x2029)
  | _ => none

/-- The number of digits behind a letter that starts an escaped number. -/
def digitCount? (c : Char) : Option Nat :=
  match c with
  | 'x' => some 2
  | 'u' => some 4
  | 'U' => some 8
  | _ => none

/-- Reads the rest of a quoted scalar behind its first quote. -/
def quoted? (single : Bool) (done : List Char) (gap : Gap) (mode : QuoteMode) (line column : Nat) :
    List Char → Option ReadScalar
  | [] =>
    match mode with
    | .quote => some ⟨String.ofList done.reverse, false, ⟨[], line, column⟩⟩
    | _ => none
  | c :: cs =>
    match mode with
    | .quote =>
      if c == '\'' then quoted? single ('\'' :: done) .empty .text line (column + 1) cs
      else some ⟨String.ofList done.reverse, false, ⟨c :: cs, line, column⟩⟩
    | .escape =>
      if isBreak c then quoted? single done (.breaks none []) .text (line + 1) 0 cs
      else
        match escaped? c, digitCount? c with
        | some e, _ => quoted? single (e :: done) .empty .text line (column + 1) cs
        | none, some n => quoted? single done .empty (.digits n 0) line (column + 1) cs
        | none, none => none
    | .digits left value =>
      if isDigitOf 16 c then
        let value := value * 16 + numeralValue 16 [c]
        if left ≤ 1 then
          if h : value.isValidChar then
            quoted? single (Char.ofNatAux value h :: done) .empty .text line (column + 1) cs
          else none
        else quoted? single done .empty (.digits (left - 1) value) line (column + 1) cs
      else none
    | .text =>
      if Cursor.atDocumentMark ⟨c :: cs, line, column⟩ then none
      else if isBlank c then quoted? single done (gap.addBlank c) .text line (column + 1) cs
      else if isBreak c then quoted? single done (gap.addBreak c) .text (line + 1) 0 cs
      else
        let done := gap.fold ++ done
        if single && c == '\'' then quoted? single done .empty .quote line (column + 1) cs
        else if !single && c == '"' then
          some ⟨String.ofList done.reverse, false, ⟨cs, line, column + 1⟩⟩
        else if !single && c == '\\' then quoted? single done .empty .escape line (column + 1) cs
        else quoted? single (c :: done) .empty .text line (column + 1) cs

/-! ## Block scalars -/

/-- What becomes of the line ends behind the last line of a block scalar. -/
inductive Chomping where
  | strip
  | clip
  | keep
deriving DecidableEq, Repr

/-- The marks behind the sign of a block scalar: chomping and a relative indentation, in either
order. -/
def blockHeader? (cs : List Char) : Option (Chomping × Option Nat × List Char) :=
  let chomping (c : Char) : Option Chomping :=
    if c = '+' then some .keep else if c = '-' then some .strip else none
  let digit (c : Char) : Option Nat := if c.isDigit then some (c.toNat - 48) else none
  let answer (k : Chomping) (n : Option Nat) (rest : List Char) :=
    if n = some 0 then none else some (k, n, rest)
  match cs with
  | [] => some (.clip, none, [])
  | c :: cs =>
    match chomping c, digit c with
    | some k, _ =>
      match cs with
      | d :: rest => if d.isDigit then answer k (digit d) rest else some (k, none, cs)
      | [] => some (k, none, [])
    | none, some n =>
      match cs with
      | d :: rest =>
        match chomping d with
        | some k => answer k (some n) rest
        | none => answer .clip (some n) cs
      | [] => answer .clip (some n) []
    | none, none => some (.clip, none, c :: cs)

/-- Blank lines in front of a line of a block scalar. -/
structure BlankLines where
  /-- Their line ends, from the last to the first. -/
  breaks : List Char
  /-- The greatest column they reached. -/
  reached : Nat
  cursor : Cursor

/-- Reads blank lines and the indentation behind them; `indent` is unknown in front of the first
line. A tab in the indentation is refused. -/
def blankLines? (indent : Option Nat) (breaks : List Char) (reached line column : Nat) :
    List Char → Option BlankLines
  | [] => some ⟨breaks, max reached column, ⟨[], line, column⟩⟩
  | c :: cs =>
    let inside := match indent with
      | some n => decide (column < n)
      | none => true
    if inside && c == ' ' then blankLines? indent breaks reached line (column + 1) cs
    else if inside && c == '\t' then none
    else if isBreak c then
      blankLines? indent (c :: breaks) (max reached column) (line + 1) 0 cs
    else some ⟨breaks, max reached column, ⟨c :: cs, line, column⟩⟩

/-- The lines of a block scalar that have been read. -/
structure Block where
  /-- The text so far, from the last character to the first. -/
  done : List Char
  /-- The end of the last line. -/
  lineEnd : List Char
  /-- The ends of the blank lines behind it, from the last to the first. -/
  blankEnds : List Char
  /-- Whether the last line started with a blank. -/
  startedBlank : Bool

/-- What stands between the last line of a block scalar and the next one, which may start with a
blank. -/
def Block.separator (folded : Bool) (b : Block) (startsBlank : Bool) : List Char :=
  if folded && b.lineEnd == ['\n'] && !b.startedBlank && !startsBlank then
    if b.blankEnds.isEmpty then [' '] else b.blankEnds
  else b.blankEnds ++ b.lineEnd

/-- Reads the lines of a block scalar; `fuel` bounds their number. -/
def blockLines? (folded : Bool) (indent : Nat) : Nat → Block → Cursor → Option (Block × Cursor)
  | 0, b, c => some (b, c)
  | fuel + 1, b, c =>
    if c.column ≠ indent ∨ c.rest = [] then some (b, c)
    else
      let startsBlank := c.rest.head?.any isBlank
      let content := c.rest.takeWhile fun ch => !isBreak ch
      let after := c.skipWhile fun ch => !isBreak ch
      let lineEnd := after.rest.head?.toList
      let start := after.next
      match blankLines? (some indent) [] 0 start.line start.column start.rest with
      | none => none
      | some blank =>
        blockLines? folded indent fuel
          { done := content.reverse ++ (b.separator folded startsBlank ++ b.done)
            lineEnd := lineEnd
            blankEnds := blank.breaks
            startedBlank := startsBlank }
          blank.cursor

/-- Reads a block scalar behind its sign; `indent` is the indentation of what it stands in. -/
def block? (folded : Bool) (indent : Int) (c : Cursor) : Option ReadScalar := do
  let (chomping, relative, rest) ← blockHeader? c.rest
  let c := (c.skip (c.rest.length - rest.length)).skipWhile isBlank
  let c := if c.rest.head? = some '#' then c.skipWhile fun ch => !isBreak ch else c
  if !atBreak c.rest then none
  let c := c.next
  let known : Option Nat := relative.map fun n => if 0 ≤ indent then indent.toNat + n else n
  let blank ← blankLines? known [] 0 c.line c.column c.rest
  let width := known.getD (max blank.reached (max (indent + 1).toNat 1))
  let first : Block := ⟨[], [], blank.breaks, false⟩
  let (b, c) ← blockLines? folded width (blank.cursor.rest.length + 1) first blank.cursor
  let tail := match chomping with
    | .strip => []
    | .clip => b.lineEnd
    | .keep => b.blankEnds ++ b.lineEnd
  return ⟨String.ofList (tail ++ b.done).reverse, true, c⟩

end CodeConcepts.Yaml
