import CodeConcepts.Yaml.Scalar

/-!
# Tokens

A YAML text is read into tokens. Indentation becomes tokens for the start and end of block
collections. Whether a node is a key shows only at the colon behind it; the token for the key is
then put in front of the node, where its place has been kept.
-/

namespace CodeConcepts.Yaml

/-- A token. -/
inductive Token where
  | version (major minor : Nat)
  | tagHandle (handle start : String)
  | documentStart
  | documentEnd
  | blockSequenceStart
  | blockMappingStart
  | blockEnd
  | sequenceStart
  | sequenceEnd
  | mappingStart
  | mappingEnd
  | blockEntry
  | flowEntry
  | key
  | value
  | aliasOf (name : String)
  | anchor (name : String)
  | tag (handle rest : String)
  | scalar (style : Style) (text : String)
deriving DecidableEq, Repr

/-- A node that may turn out to be a key. -/
structure KeyPlace where
  /-- Number of tokens in front of it. -/
  tokens : Nat
  line : Nat
  column : Nat
  /-- Number of characters left in the text behind its start. -/
  left : Nat
  /-- Whether it can be nothing else. -/
  required : Bool

/-- The state of the scanner. -/
structure Scanner where
  cursor : Cursor
  /-- The column of the current block collection; -1 outside of all. -/
  indent : Int
  /-- The columns of the collections around it. -/
  indents : List Int
  /-- The possible key at this level and at the levels of brackets around it. -/
  keys : List (Option KeyPlace)
  keyAllowed : Bool
  /-- The tokens so far, from the last to the first. -/
  tokens : List Token

namespace Scanner

/-- The start of a text. -/
def start (cs : List Char) : Scanner := ⟨⟨cs, 0, 0⟩, -1, [], [none], true, []⟩

/-- Whether the scanner is inside brackets. -/
def inFlow (s : Scanner) : Bool := decide (1 < s.keys.length)

/-- Adds a token. -/
def add (s : Scanner) (t : Token) : Scanner := { s with tokens := t :: s.tokens }

/-- Puts a token at the place behind a number of tokens. -/
def insert (s : Scanner) (place : Nat) (t : Token) : Scanner :=
  let behind := s.tokens.length - place
  { s with tokens := s.tokens.take behind ++ t :: s.tokens.drop behind }

/-- Gives up the possible key at this level, unless it has to be one. -/
def dropKey? (s : Scanner) : Option Scanner :=
  match s.keys with
  | some k :: ks => if k.required then none else some { s with keys := none :: ks }
  | _ => some s

/-- Notes that a node that may be a key starts here. -/
def saveKey? (s : Scanner) : Option Scanner :=
  if s.keyAllowed then do
    let s ← s.dropKey?
    let place : KeyPlace :=
      { tokens := s.tokens.length
        line := s.cursor.line
        column := s.cursor.column
        left := s.cursor.rest.length
        required := !s.inFlow && decide (s.indent = (s.cursor.column : Int)) }
    return { s with keys := some place :: s.keys.tail }
  else some s

/-- The greatest length of a key. -/
def keyLimit : Nat := 1024

/-- Gives up possible keys that have become too long or are not on this line. -/
def dropStaleKeys? (s : Scanner) : Option Scanner := do
  let keys ← s.keys.mapM fun k? =>
    match k? with
    | none => some none
    | some k =>
      if k.line < s.cursor.line ∨ s.cursor.rest.length + keyLimit < k.left then
        if k.required then none else some none
      else some (some k)
  return { s with keys := keys }

/-- Starts a block collection at a column, if that is deeper than the current one. -/
def roll (s : Scanner) (column : Nat) (place : Nat) (t : Token) : Scanner :=
  if s.inFlow ∨ (column : Int) ≤ s.indent then s
  else { s.insert place t with indent := column, indents := s.indent :: s.indents }

/-- Ends the block collections that lie deeper than a column. -/
def unrollFrom (column : Int) : List Int → Scanner → Scanner
  | [], s => s
  | i :: is, s =>
    if column < s.indent then unrollFrom column is { s.add .blockEnd with indent := i, indents := is }
    else s

/-- Ends the block collections that lie deeper than a column. -/
def unroll (s : Scanner) (column : Int) : Scanner :=
  if s.inFlow then s else unrollFrom column s.indents s

/-- Moves the cursor. -/
def moveTo (s : Scanner) (c : Cursor) : Scanner := { s with cursor := c }

/-- Skips blanks, comments and line ends. Tabs count as blanks only where no key may start. -/
def skipToToken (inFlow : Bool) (keyAllowed inComment : Bool) (line column : Nat) :
    List Char → Cursor × Bool
  | [] => (⟨[], line, column⟩, keyAllowed)
  | c :: cs =>
    if isBreak c then skipToToken inFlow (keyAllowed || !inFlow) false (line + 1) 0 cs
    else if inComment then skipToToken inFlow keyAllowed true line (column + 1) cs
    else if c == '#' then skipToToken inFlow keyAllowed true line (column + 1) cs
    else if c == ' ' || ((inFlow || !keyAllowed) && c == '\t') then
      skipToToken inFlow keyAllowed false line (column + 1) cs
    else if column == 0 && c == byteOrderMark then
      skipToToken inFlow keyAllowed false line (column + 1) cs
    else (⟨c :: cs, line, column⟩, keyAllowed)

/-! ## Single tokens -/

/-- A token of one or more characters that ends what may be a key. -/
def indicator? (s : Scanner) (length : Nat) (t : Token) (keyAllowed : Bool) : Option Scanner := do
  let s ← s.dropKey?
  return { (s.moveTo (s.cursor.skip length)).add t with keyAllowed := keyAllowed }

/-- The start of a collection in brackets. -/
def openFlow? (s : Scanner) (t : Token) : Option Scanner := do
  let s ← s.saveKey?
  return { (s.moveTo (s.cursor.skip 1)).add t with keyAllowed := true, keys := none :: s.keys }

/-- The end of a collection in brackets. -/
def closeFlow? (s : Scanner) (t : Token) : Option Scanner := do
  let s ← s.dropKey?
  let keys := if s.inFlow then s.keys.tail else s.keys
  return { (s.moveTo (s.cursor.skip 1)).add t with keyAllowed := false, keys := keys }

/-- The dash of an item. -/
def blockEntry? (s : Scanner) : Option Scanner :=
  if s.inFlow then s.indicator? 1 .blockEntry true
  else if s.keyAllowed then
    (s.roll s.cursor.column s.tokens.length .blockSequenceStart).indicator? 1 .blockEntry true
  else none

/-- The question mark of a key. -/
def key? (s : Scanner) : Option Scanner :=
  if s.inFlow then s.indicator? 1 .key false
  else if s.keyAllowed then
    (s.roll s.cursor.column s.tokens.length .blockMappingStart).indicator? 1 .key true
  else none

/-- The colon of a value. -/
def value? (s : Scanner) : Option Scanner :=
  match s.keys with
  | some k :: ks =>
    let s := (s.insert k.tokens .key).roll k.column k.tokens .blockMappingStart
    some { (s.moveTo (s.cursor.skip 1)).add .value with keys := none :: ks, keyAllowed := false }
  | _ =>
    if s.inFlow then
      some { (s.moveTo (s.cursor.skip 1)).add .value with keyAllowed := false }
    else if s.keyAllowed then
      let s := s.roll s.cursor.column s.tokens.length .blockMappingStart
      some { (s.moveTo (s.cursor.skip 1)).add .value with keyAllowed := true }
    else none

/-- The name of an anchor or alias. -/
def reference? (s : Scanner) (make : String → Token) : Option Scanner := do
  let s ← s.saveKey?
  let c := s.cursor.skip 1
  let name := c.rest.takeWhile isWordChar
  let c := c.skipWhile isWordChar
  if name.isEmpty || !(atBlank c.rest || c.rest.head?.any "?:,]\x7d%@\x60".toList.contains) then none
  return { (s.moveTo c).add (make (String.ofList name)) with keyAllowed := false }

/-- Characters of which tags consist. -/
def isTagChar (c : Char) : Bool := isWordChar c || ";/?:@&=+$.!~*'()%".toList.contains c

/-- A tag: in angle brackets, behind a handle, or behind a mere exclamation mark. -/
def tag? (s : Scanner) : Option Scanner := do
  let s ← s.saveKey?
  let c := s.cursor.skip 1
  let (t, c) ←
    if c.rest.head? = some '<' then
      let inner := c.skip 1
      let allowed (ch : Char) : Bool := isTagChar ch || ",[]".toList.contains ch
      let name := inner.rest.takeWhile allowed
      let after := inner.skipWhile allowed
      if name.isEmpty || after.rest.head? ≠ some '>' then none
      else some (Token.tag "" (String.ofList name), after.skip 1)
    else
      let word := c.rest.takeWhile isWordChar
      let after := c.skipWhile isWordChar
      if after.rest.head? = some '!' then
        let inner := after.skip 1
        let name := inner.rest.takeWhile isTagChar
        if name.isEmpty then none
        else
          some (Token.tag (String.ofList ('!' :: word ++ ['!'])) (String.ofList name),
            inner.skipWhile isTagChar)
      else
        some (Token.tag "!" (String.ofList (c.rest.takeWhile isTagChar)), c.skipWhile isTagChar)
  if !(atBlank c.rest || (s.inFlow && c.rest.head? = some ',')) then none
  return { (s.moveTo c).add t with keyAllowed := false }

/-- A block scalar. -/
def blockScalar? (s : Scanner) (folded : Bool) : Option Scanner := do
  let s ← s.dropKey?
  let r ← block? folded s.indent (s.cursor.skip 1)
  let style := if folded then Style.folded else Style.literal
  return { (s.moveTo r.cursor).add (.scalar style r.text) with keyAllowed := true }

/-- A quoted scalar. -/
def quotedScalar? (s : Scanner) (single : Bool) : Option Scanner := do
  let s ← s.saveKey?
  let c := s.cursor.skip 1
  let r ← quoted? single [] .empty .text c.line c.column c.rest
  return { (s.moveTo r.cursor).add (.scalar .quoted r.text) with keyAllowed := false }

/-- A plain scalar. -/
def plainScalar? (s : Scanner) : Option Scanner := do
  let s ← s.saveKey?
  let r ← plain? s.inFlow (s.indent + 1) [] .empty false s.cursor.line s.cursor.column s.cursor.rest
  return { (s.moveTo r.cursor).add (.scalar .plain r.text) with keyAllowed := r.passedBreak }

/-- A mark between documents. -/
def documentMark? (s : Scanner) (t : Token) : Option Scanner :=
  (s.unroll (-1)).indicator? 3 t false

/-- The rest of a line holds at most a comment. -/
def lineEnds (cs : List Char) : Bool :=
  let cs := cs.dropWhile isBlank
  atBreak cs || cs.head? = some '#'

/-- A number and what is behind it. -/
def number? (cs : List Char) : Option (Nat × List Char) :=
  let ds := cs.takeWhile Char.isDigit
  if ds.isEmpty || 9 < ds.length then none
  else some (numeralValue 10 ds, cs.dropWhile Char.isDigit)

/-- The token of a directive, of whose line the part behind the percent sign is given. -/
def directiveToken? (line : List Char) : Option Token :=
  let name := line.takeWhile isWordChar
  let rest := (line.dropWhile isWordChar).dropWhile isBlank
  if name = "YAML".toList then
    match number? rest with
    | some (major, '.' :: rest) =>
      match number? rest with
      | some (minor, rest) => if lineEnds rest then some (.version major minor) else none
      | none => none
    | _ => none
  else if name = "TAG".toList then
    match rest with
    | '!' :: rest =>
      let word := rest.takeWhile isWordChar
      let after := rest.dropWhile isWordChar
      let handle := match after with
        | '!' :: _ => some ('!' :: word ++ ['!'], after.tail)
        | _ => if word.isEmpty then some (['!'], after) else none
      match handle with
      | none => none
      | some (handle, after) =>
        let start := (after.dropWhile isBlank).takeWhile fun c => isTagChar c || c == ','
        let behind := (after.dropWhile isBlank).dropWhile fun c => isTagChar c || c == ','
        if atBlank after && !start.isEmpty && atBlank behind && lineEnds behind then
          some (.tagHandle (String.ofList handle) (String.ofList start))
        else none
    | _ => none
  else none

/-- A directive. -/
def directive? (s : Scanner) : Option Scanner := do
  let s ← (s.unroll (-1)).dropKey?
  let c := s.cursor.skip 1
  let t ← directiveToken? (c.rest.takeWhile fun ch => !isBreak ch)
  let after := c.skipWhile fun ch => !isBreak ch
  return { (s.moveTo after.next).add t with keyAllowed := false }

/-- Characters that start no plain scalar. -/
def indicators : List Char := "-?:,[]\x7b\x7d#&*!|>'\"%@\x60".toList

/-- Whether a plain scalar starts here. -/
def startsPlain (inFlow : Bool) : List Char → Bool
  | [] => false
  | c :: cs =>
    !(isBlank c || isBreak c || indicators.contains c) ||
      (c == '-' && !cs.head?.any isBlank) ||
      (!inFlow && (c == '?' || c == ':') && !atBlank cs)

/-! ## The whole text -/

/-- Reads the next token; at the end of the text, ends all collections and returns `true`. -/
def step? (s : Scanner) : Option (Scanner × Bool) := do
  let (c, allowed) :=
    skipToToken s.inFlow s.keyAllowed false s.cursor.line s.cursor.column s.cursor.rest
  let s ← dropStaleKeys? { s with cursor := c, keyAllowed := allowed }
  let s := s.unroll c.column
  let goOn (r : Option Scanner) : Option (Scanner × Bool) := r.map fun s => (s, false)
  match c.rest with
  | [] =>
    let s ← (s.unroll (-1)).dropKey?
    return (s, true)
  | ch :: rest =>
    if c.column == 0 && ch == '%' then goOn s.directive?
    else if c.atDocumentMark then
      goOn (s.documentMark? (if ch == '-' then .documentStart else .documentEnd))
    else if ch == '[' then goOn (s.openFlow? .sequenceStart)
    else if ch == '{' then goOn (s.openFlow? .mappingStart)
    else if ch == ']' then goOn (s.closeFlow? .sequenceEnd)
    else if ch == '}' then goOn (s.closeFlow? .mappingEnd)
    else if ch == ',' then goOn (s.indicator? 1 .flowEntry true)
    else if ch == '-' && atBlank rest then goOn s.blockEntry?
    else if ch == '?' && (s.inFlow || atBlank rest) then goOn s.key?
    else if ch == ':' && (s.inFlow || atBlank rest) then goOn s.value?
    else if ch == '*' then goOn (s.reference? .aliasOf)
    else if ch == '&' then goOn (s.reference? .anchor)
    else if ch == '!' then goOn s.tag?
    else if ch == '|' && !s.inFlow then goOn (s.blockScalar? false)
    else if ch == '>' && !s.inFlow then goOn (s.blockScalar? true)
    else if ch == '\'' then goOn (s.quotedScalar? true)
    else if ch == '"' then goOn (s.quotedScalar? false)
    else if startsPlain s.inFlow (ch :: rest) then goOn s.plainScalar?
    else none

/-- Reads all tokens; each token takes at least one character, so as much fuel is enough. -/
def run? : Nat → Scanner → Option (List Token)
  | 0, _ => none
  | fuel + 1, s =>
    match s.step? with
    | none => none
    | some (s, true) => some s.tokens.reverse
    | some (s, false) => run? fuel s

end Scanner

/-- The tokens of a text. -/
def tokens? (s : String) : Option (List Token) := do
  let cs ← characters? s
  Scanner.run? (cs.length + 1) (.start cs)

end CodeConcepts.Yaml
