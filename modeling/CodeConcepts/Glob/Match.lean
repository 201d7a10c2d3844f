import CodeConcepts.Glob.Pattern

/-!
# Matching

A pattern is compared with the bytes of a path. Each piece is given the ends of the path that are
still to be matched and returns those that are left behind it; the pattern matches if nothing may be
left at the end.
-/

namespace CodeConcepts.Glob

/-- The byte of a slash. -/
def slash : UInt8 := 47

/-- All ends of a text, itself included. -/
def ends : List UInt8 → List (List UInt8)
  | [] => [[]]
  | b :: bs => (b :: bs) :: ends bs

/-- The ends of a text behind each of its slashes. -/
def endsBehindSlash : List UInt8 → List (List UInt8)
  | [] => []
  | b :: bs => if b = slash then bs :: endsBehindSlash bs else endsBehindSlash bs

/-- The ends of a text that leave only bytes other than slashes behind. -/
def endsWithinName : List UInt8 → List (List UInt8)
  | [] => [[]]
  | b :: bs => if b = slash then [b :: bs] else (b :: bs) :: endsWithinName bs

/-- What is left behind a literal start. -/
def behind (start bs : List UInt8) : List (List UInt8) :=
  match start, bs with
  | [], bs => [bs]
  | _ :: _, [] => []
  | s :: ss, b :: bs => if s = b then behind ss bs else []

/-- The ranges of bytes that a range of characters stands for: the bytes of both ends, with all
between the last byte of the first end and the first byte of the second one. -/
def byteRanges (r : Char × Char) : List (UInt8 × UInt8) :=
  let low := String.utf8EncodeChar r.1
  let high := String.utf8EncodeChar r.2
  let single (bs : List UInt8) : List (UInt8 × UInt8) := bs.map fun b => (b, b)
  if r.1 = r.2 then single low
  else single low.dropLast ++ [(low.getLastD 0, high.headD 0)] ++ single high.tail

/-- Whether a class holds a byte. -/
def holds (negated : Bool) (ranges : List (Char × Char)) (b : UInt8) : Bool :=
  (ranges.flatMap byteRanges).any (fun r => decide (r.1 ≤ b ∧ b ≤ r.2)) != negated

mutual

/-- Whether a piece stands for nothing at all. -/
def Piece.isVoid : Piece → Bool
  | .alternatives branches => areVoidBranches branches
  | _ => false

/-- Whether all pieces stand for nothing. -/
def areVoid : List Piece → Bool
  | [] => true
  | p :: ps => p.isVoid && areVoid ps

/-- Whether all branches stand for nothing. -/
def areVoidBranches : List (List Piece) → Bool
  | [] => true
  | b :: bs => areVoid b && areVoidBranches bs

end

mutual

/-- What may be left of a text behind a piece; `crossing` says whether wildcards match slashes. -/
def Piece.left (crossing : Bool) (bs : List UInt8) : Piece → List (List UInt8)
  | .literal c => behind (String.utf8EncodeChar c) bs
  | .one =>
    match bs with
    | [] => []
    | b :: rest => if crossing || b ≠ slash then [rest] else []
  | .many => if crossing then ends bs else endsWithinName bs
  | .leading => bs :: endsBehindSlash bs
  | .trailing =>
    match bs with
    | [] => []
    | b :: rest => if b = slash then ends rest else []
  | .between =>
    match bs with
    | [] => []
    | b :: rest => if b = slash then rest :: endsBehindSlash rest else []
  | .oneOf negated ranges =>
    match bs with
    | [] => []
    | b :: rest => if holds negated ranges b && (crossing || b ≠ slash) then [rest] else []
  | .alternatives branches =>
    if areVoidBranches branches then [bs] else leftOfAny crossing bs branches

/-- What may be left behind a list of pieces, given what may be left in front of it. -/
def leftOfAll (crossing : Bool) (rests : List (List UInt8)) : List Piece → List (List UInt8)
  | [] => rests
  | p :: ps => leftOfAll crossing (rests.flatMap fun bs => p.left crossing bs).eraseDups ps

/-- What may be left behind one of several branches; empty branches do not count. -/
def leftOfAny (crossing : Bool) (bs : List UInt8) : List (List Piece) → List (List UInt8)
  | [] => []
  | b :: branches =>
    (if areVoid b then [] else leftOfAll crossing [bs] b) ++ leftOfAny crossing bs branches

end

/-- The characters of pieces that are all literal. -/
def literals? (ps : List Piece) : Option (List Char) :=
  ps.mapM fun p => match p with
    | .literal c => some c
    | _ => none

/-- Whether the end of a path is compared as text. Otherwise its last name or its extension is
looked at, and a path that ends in a dot has neither. -/
def comparesEnd (crossing : Bool) (ps : List Piece) : Bool :=
  match ps with
  | .leading :: .many :: ps => crossing && (literals? ps).any (· ≠ ['.'])
  | .leading :: ps => (literals? ps).any (·.contains '/')
  | .many :: ps => crossing && (literals? ps).any (· ≠ ['.'])
  | ps => (literals? ps).isSome

/-- Whether the last piece is a dot. -/
def endsInDot (ps : List Piece) : Bool :=
  match ps.getLast? with
  | some (.literal c) => c == '.'
  | _ => false

end CodeConcepts.Glob

namespace CodeConcepts.Glob

/-- Whether a pattern matches a whole path; `crossing` says whether wildcards match slashes. The
pattern `**` matches everything. -/
def accepts (crossing : Bool) (g : Glob) (path : String) : Bool :=
  match g.pieces with
  | [.leading] => true
  | ps =>
    if endsInDot ps && !comparesEnd crossing ps then false
    else (leftOfAll crossing [path.toUTF8.data.toList] ps).contains []

/-- The readable ones of a list of patterns. -/
def readable (patterns : List String) : List Glob := patterns.filterMap parse?

/-- Whether one of several patterns matches. -/
def anyAccepts (crossing : Bool) (globs : List Glob) (path : String) : Bool :=
  globs.any (·.accepts crossing path)

end CodeConcepts.Glob
