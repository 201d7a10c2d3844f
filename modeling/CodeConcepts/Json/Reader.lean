import CodeConcepts.Json.Token

/-!
# Reading JSON

The tokens of a text are read from left to right by a machine whose state is a stack of the arrays
and objects that are still open. A text is one value; values may nest only so deep.
-/

namespace CodeConcepts.Json

/-- An array or object that is still open, with what it holds so far, last first. An object waits
for the value of a name. -/
inductive Open where
  | array (items : List Json)
  | object (members : List (String × Json)) (name : String)
deriving Repr

/-- What the reader expects next. -/
inductive Reader where
  /-- A value. -/
  | value (stack : List Open)
  /-- The first item of an array, or its end. -/
  | firstItem (stack : List Open)
  /-- The name of a member, or the end of an object that has none yet. -/
  | name (members : List (String × Json)) (stack : List Open)
  /-- The colon after a name. -/
  | colon (members : List (String × Json)) (name : String) (stack : List Open)
  /-- A comma or an end: a value is complete. -/
  | complete (value : Json) (stack : List Open)
deriving Repr

namespace Reader

/-- Reads the first token of a value inside the open arrays and objects of `stack`, of which there
may be fewer than `limit`. -/
def start (limit : Nat) (stack : List Open) : Token → Option Reader
  | .scalar v => some (.complete v stack)
  | .openArray => if stack.length < limit then some (.firstItem stack) else none
  | .openObject => if stack.length < limit then some (.name [] stack) else none
  | _ => none

/-- Reads one token. -/
def step (limit : Nat) : Reader → Token → Option Reader
  | .value stack, t => start limit stack t
  | .firstItem stack, .closeArray => some (.complete (.array []) stack)
  | .firstItem stack, t => start limit (.array [] :: stack) t
  | .name [] stack, .closeObject => some (.complete (.object []) stack)
  | .name members stack, .scalar (.string n) => some (.colon members n stack)
  | .colon members n stack, .colon => some (.value (.object members n :: stack))
  | .complete v (.array items :: stack), .comma => some (.value (.array (v :: items) :: stack))
  | .complete v (.array items :: stack), .closeArray =>
    some (.complete (.array (v :: items).reverse) stack)
  | .complete v (.object members n :: stack), .comma => some (.name ((n, v) :: members) stack)
  | .complete v (.object members n :: stack), .closeObject =>
    some (.complete (record ((n, v) :: members).reverse) stack)
  | _, _ => none

/-- Reads all tokens. -/
def run (limit : Nat) (r : Reader) : List Token → Option Reader
  | [] => some r
  | t :: ts => (r.step limit t).bind fun r => run limit r ts

end Reader

/-- The value a text stands for, if the text is JSON and nests at most `limit` levels. -/
def parse? (limit : Nat) (text : String) : Option Json := do
  let tokens ← Token.all? text.toList
  match ← (Reader.value []).run limit tokens with
  | .complete v [] => some v
  | _ => none

/-- The deepest nesting a model or configuration may have. -/
def nestingLimit : Nat := 127

end CodeConcepts.Json
