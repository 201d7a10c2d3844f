import CodeConcepts.Syntax.Tree

/-!
# Trees from rows

A syntax tree is handed over as the list of its nodes in pre-order, each with its depth. The rows
are read from the last to the first: the children of a row are then the roots found so far that lie
deeper than it.
-/

namespace CodeConcepts.Syntax

/-- A node of a tree that was written down in pre-order. -/
structure Row where
  depth : Nat
  kind : String
  named : Bool
  missing : Bool
  roles : List String
  /-- Offset of the first byte. -/
  start : Nat
  /-- Offset of the byte after the last one. -/
  stop : Nat
  remote : List (String × Nat)
deriving Repr

/-- The bytes of a file with the offsets at which its lines start. -/
structure SourceText where
  bytes : ByteArray
  lineStarts : List Nat

namespace SourceText

/-- The offsets after each line feed. -/
def lineStartsAfter (offset : Nat) : List UInt8 → List Nat
  | [] => []
  | b :: bs =>
    if b = 10 then (offset + 1) :: lineStartsAfter (offset + 1) bs
    else lineStartsAfter (offset + 1) bs

/-- The text of a file. -/
def ofBytes (bytes : ByteArray) : SourceText := ⟨bytes, lineStartsAfter 0 bytes.toList⟩

/-- Row and column of an offset. -/
def pointAt (s : SourceText) (offset : Nat) : Point :=
  let before := s.lineStarts.filter (· ≤ offset)
  ⟨before.length, offset - before.getLastD 0⟩

/-- The text between two offsets; a range that is not UTF-8 has the empty text. -/
def slice (s : SourceText) (start stop : Nat) : String :=
  (String.fromUTF8? (s.bytes.extract start stop)).getD ""

end SourceText

/-- The label of a row. -/
def Row.label (s : SourceText) (r : Row) (id : Nat) : Label where
  id := id
  kind := r.kind
  named := r.named
  missing := r.missing
  roles := r.roles
  text := s.slice r.start r.stop
  start := s.pointAt r.start
  stop := s.pointAt r.stop
  remote := r.remote

namespace Tree

/-- Puts a row in front of the trees of the rows after it: those that lie deeper become its
children. -/
def addRow (s : SourceText) (r : Row × Nat) (later : List (Nat × Tree Unit)) :
    List (Nat × Tree Unit) :=
  let (below, rest) := later.span fun p => r.1.depth < p.1
  (r.1.depth, .node (r.1.label s r.2) () (below.map (·.2))) :: rest

/-- The tree of a list of rows. -/
def ofRows? (bytes : ByteArray) (rows : List Row) : Option (Tree Unit) :=
  let s := SourceText.ofBytes bytes
  ((rows.zipIdx.foldr (addRow s) []).head?).map (·.2)

/-! ## Errors of the parser -/

/-- The earlier of two points. -/
def earlier (p q : Point) : Point :=
  if q.row < p.row ∨ (q.row = p.row ∧ q.column < p.column) then q else p

/-- Where the first syntax error is: the least start of an error or of the first node that the
parser made up. -/
def firstFault? {α : Type} (t : Tree α) : Option Point :=
  let all := t.subtrees
  let errors := (all.filter fun c => c.kind == "ERROR").map (·.label.start)
  let missing := (all.find? fun c => c.label.missing).map (·.label.start)
  match errors ++ missing.toList with
  | [] => none
  | p :: ps => some (ps.foldl earlier p)

end Tree

end CodeConcepts.Syntax
