/-!
# Starts and ends of texts

Cutting a known start or end off a text.
-/

namespace CodeConcepts.Text

/-- What is left of a text behind a start. -/
def afterStart? : List Char → List Char → Option (List Char)
  | [], cs => some cs
  | _ :: _, [] => none
  | p :: ps, c :: cs => if p = c then afterStart? ps cs else none

/-- What is left of a text in front of an end. -/
def beforeEnd? (stop cs : List Char) : Option (List Char) :=
  (afterStart? stop.reverse cs.reverse).map List.reverse

/-- Whether a text starts so. -/
def startsWith (start s : String) : Bool := (afterStart? start.toList s.toList).isSome

/-- Whether a text ends so. -/
def endsWith (stop s : String) : Bool := (beforeEnd? stop.toList s.toList).isSome

/-- The text with an end replaced, if it has that end. -/
def replaceEnd? (stop new s : String) : Option String :=
  (beforeEnd? stop.toList s.toList).map fun cs => String.ofList cs ++ new

/-- The text without repeated occurrences of two characters at its start. -/
def dropPairs (a b : Char) : List Char → List Char
  | c :: d :: cs => if c = a ∧ d = b then dropPairs a b cs else c :: d :: cs
  | cs => cs

theorem afterStart?_eq_some {start cs rest : List Char} :
    afterStart? start cs = some rest ↔ cs = start ++ rest := by
  fun_induction afterStart? start cs with
  | case1 => simp [eq_comm]
  | case2 => simp
  | case3 ps c cs ih => simp [ih]
  | case4 p ps c cs h => simp [Ne.symm h]

theorem beforeEnd?_eq_some {stop cs rest : List Char} :
    beforeEnd? stop cs = some rest ↔ cs = rest ++ stop := by
  constructor
  · intro h
    obtain ⟨r, hr, rfl⟩ := Option.map_eq_some_iff.1 h
    have := congrArg List.reverse (afterStart?_eq_some.1 hr)
    simpa using this
  · rintro rfl
    refine Option.map_eq_some_iff.2 ⟨rest.reverse, afterStart?_eq_some.2 (by simp), by simp⟩

end CodeConcepts.Text
