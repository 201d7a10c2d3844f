/-!
# Glob patterns

A pattern is read into a list of pieces. `**` is special only as a whole component of a path:
`**/` at the start, `/**` at the end and `/**/` in between; elsewhere it is two stars. Braces hold
alternatives and may be nested, brackets hold a class of characters, and a backslash takes the next
character as it is.
-/

namespace CodeConcepts.Glob

/-- A piece of a pattern. -/
inductive Piece where
  | literal (c : Char)
  /-- `?`: one byte. -/
  | one
  /-- `*`: any number of bytes. -/
  | many
  /-- `**/` at the start: any directories, or none. -/
  | leading
  /-- `/**` at the end: anything below. -/
  | trailing
  /-- `/**/`: any directories in between, or none. -/
  | between
  /-- A class of characters, each range with both ends. -/
  | oneOf (negated : Bool) (ranges : List (Char × Char))
  | alternatives (branches : List (List Piece))
deriving Repr, Inhabited

/-! ## Classes -/

/-- Makes the last range, which has one character so far, end at another one. -/
def extendRange? (c : Char) : List (Char × Char) → Option (List (Char × Char))
  | [] => none
  | (a, _) :: rs => if c < a then none else some ((a, c) :: rs)

/-- Reads the ranges of a class up to its bracket and returns what is behind it. The ranges read so
far are listed from the last to the first; `inRange` says that a dash is still to be decided. -/
def classRanges? (first inRange : Bool) (ranges : List (Char × Char)) :
    List Char → Option (List (Char × Char) × List Char)
  | [] => none
  | c :: cs =>
    if c = ']' ∧ ¬first then
      some ((if inRange then ('-', '-') :: ranges else ranges).reverse, cs)
    else if inRange then
      match extendRange? c ranges with
      | some ranges => classRanges? false false ranges cs
      | none => none
    else if c = '-' ∧ ¬first then classRanges? false true ranges cs
    else classRanges? false false ((c, c) :: ranges) cs

theorem length_classRanges? {first inRange : Bool} {ranges rs : List (Char × Char)}
    {cs rest : List Char} (h : classRanges? first inRange ranges cs = some (rs, rest)) :
    rest.length < cs.length := by
  fun_induction classRanges? first inRange ranges cs with
  | case1 => simp at h
  | case2 => simp at h; simp [← h.2]
  | case3 _ _ _ _ _ _ _ ih => have := ih h; simp only [List.length_cons]; omega
  | case4 => simp at h
  | case5 _ _ _ _ _ _ _ _ ih => have := ih h; simp only [List.length_cons]; omega
  | case6 _ _ _ _ _ _ _ _ ih => have := ih h; simp only [List.length_cons]; omega

/-- Reads a class behind its opening bracket. -/
def class? (cs : List Char) : Option (Piece × List Char) :=
  match cs with
  | '!' :: cs => (classRanges? true false [] cs).map fun p => (.oneOf true p.1, p.2)
  | '^' :: cs => (classRanges? true false [] cs).map fun p => (.oneOf true p.1, p.2)
  | cs => (classRanges? true false [] cs).map fun p => (.oneOf false p.1, p.2)

theorem length_class? {cs rest : List Char} {p : Piece} (h : class? cs = some (p, rest)) :
    rest.length < cs.length := by
  unfold class? at h
  split at h
  all_goals
    obtain ⟨⟨rs, r⟩, hr, e⟩ := Option.map_eq_some_iff.1 h
    cases e
    have := length_classRanges? hr
    simp only [List.length_cons]
    omega

/-! ## Patterns -/

/-- A group of alternatives that is still open. -/
structure Group where
  /-- The pieces in front of the group, from the last to the first. -/
  before : List Piece
  /-- Its finished branches, from the last to the first. -/
  branches : List (List Piece)

/-- What becomes of the piece in front of `**`: a directory wildcard swallows the slash there. -/
def absorb (atEnd : Bool) : List Piece → List Piece
  | .leading :: ps => .leading :: ps
  | .trailing :: ps => .trailing :: ps
  | ps => (if atEnd then .trailing else .between) :: ps.tail

/-- Whether `**` behind a character may be a component of its own: behind a slash, or behind a
comma or brace inside of a group. -/
def mayStartComponent (last : Option Char) (groups : List Group) : Bool :=
  last = some '/' || (!groups.isEmpty && (last = some ',' || last = some '{'))

/-- Reads what follows `**` as far as it belongs to it. Returns the character in front of what is
left, the pieces of the current branch, and what is left. -/
def stars (last : Option Char) (done : List Piece) (groups : List Group) (cs : List Char) :
    Option Char × List Piece × List Char :=
  if done.isEmpty then
    match cs with
    | [] => (some '*', [.leading], [])
    | '/' :: cs => (some '/', [.leading], cs)
    | cs => (some '*', .many :: .many :: done, cs)
  else if mayStartComponent last groups then
    match cs with
    | [] => (some '*', absorb true done, [])
    | '/' :: cs => (some '/', absorb false done, cs)
    | c :: cs =>
      if !groups.isEmpty && (c = ',' || c = '}') then (some '*', absorb true done, c :: cs)
      else (some '*', .many :: .many :: done, c :: cs)
  else (some '*', .many :: .many :: done, cs)

theorem length_stars (last : Option Char) (done : List Piece) (groups : List Group)
    (cs : List Char) : (stars last done groups cs).2.2.length ≤ cs.length := by
  unfold stars
  repeat' split
  all_goals simp

/-- Reads a pattern. `last` is the character in front and `done` the pieces of the current branch,
from the last to the first. -/
def pieces? (last : Option Char) (done : List Piece) (groups : List Group) :
    List Char → Option (List Piece)
  | [] => if groups.isEmpty then some done.reverse else none
  | '?' :: cs => pieces? (some '?') (.one :: done) groups cs
  | '*' :: '*' :: cs =>
    have := length_stars last done groups cs
    let s := stars last done groups cs
    pieces? s.1 s.2.1 groups s.2.2
  | '*' :: cs => pieces? (some '*') (.many :: done) groups cs
  | '[' :: cs =>
    match h : class? cs with
    | some (p, rest) =>
      have := length_class? h
      pieces? (some ']') (p :: done) groups rest
    | none => none
  | '{' :: cs => pieces? (some '{') [] (⟨done, []⟩ :: groups) cs
  | '}' :: cs =>
    match groups with
    | g :: gs =>
      pieces? (some '}') (.alternatives (done.reverse :: g.branches).reverse :: g.before) gs cs
    | [] => none
  | ',' :: cs =>
    match groups with
    | g :: gs => pieces? (some ',') [] (⟨g.before, done.reverse :: g.branches⟩ :: gs) cs
    | [] => pieces? (some ',') (.literal ',' :: done) [] cs
  | ['\\'] => none
  | '\\' :: c :: cs => pieces? (some c) (.literal c :: done) groups cs
  | c :: cs => pieces? (some c) (.literal c :: done) groups cs
termination_by cs => cs.length

end CodeConcepts.Glob

namespace CodeConcepts

/-- A glob pattern. -/
structure Glob where
  pieces : List Glob.Piece
deriving Repr, Inhabited

/-- Reads a pattern. An open group or class, a closing brace without a group, a range that runs
backwards and a backslash at the end are refused. -/
def Glob.parse? (s : String) : Option Glob := (Glob.pieces? none [] [] s.toList).map Glob.mk

end CodeConcepts
