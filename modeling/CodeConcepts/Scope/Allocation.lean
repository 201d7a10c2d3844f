import CodeConcepts.Concept.Kind

/-!
# Allocation of names

Two declarations of one kind must not have the same name. The second one that asks for a name gets
it with the suffix `$1`, or the least higher number that is free.
-/

namespace CodeConcepts

/-- The names already given away, by kind. -/
abbrev Taken : Type := List (Kind × QName)

namespace Taken

/-- A name with a number behind it. -/
def suffixed (n : QName) (i : Nat) : QName := ⟨n.text ++ "$" ++ toString i⟩

/-- Whether a name is free for a kind. -/
def isFree (taken : Taken) (kind : Kind) (n : QName) : Bool := !taken.contains (kind, n)

/-- The least number that makes a name free. There are more candidates than names taken. -/
def leastSuffix (taken : Taken) (kind : Kind) (n : QName) : Nat :=
  (((List.range (taken.length + 1)).map (· + 1)).find? fun i =>
    taken.isFree kind (suffixed n i)).getD (taken.length + 1)

/-- The name a declaration gets that asks for `n`. -/
def choose (taken : Taken) (kind : Kind) (n : QName) : QName :=
  if taken.isFree kind n then n else suffixed n (taken.leastSuffix kind n)

/-- Gives a name away. -/
def allocate (taken : Taken) (kind : Kind) (n : QName) : QName × Taken :=
  let chosen := taken.choose kind n
  (chosen, (kind, chosen) :: taken)

end Taken

end CodeConcepts
