import CodeConcepts.Json.Fields
import CodeConcepts.Json.Reader

/-!
# Selected fields

Reading of a record of which only some fields matter. The values of all other members are passed
over: they have to be written correctly, but a string may hold half a surrogate pair there and a
number may be beyond the doubles. No field that matters may be given twice.
-/

namespace CodeConcepts.Json

/-- A token, or a scalar that is written correctly but stands for no value. -/
inductive Lexeme where
  | token (t : Token)
  | oddString
  | oddNumber
deriving Repr

namespace Lexeme

/-- What follows the closing quote of a string whose escapes are written correctly. -/
def afterString? : List Char → Option (List Char)
  | [] => none
  | '"' :: rest => some rest
  | '\\' :: 'u' :: a :: b :: c :: d :: rest =>
    if (Token.hex4? a b c d).isSome then afterString? rest else none
  | '\\' :: e :: rest => if (Token.escaped? e).isSome then afterString? rest else none
  | c :: rest => if c.toNat < 0x20 then none else afterString? rest

theorem length_afterString? {cs r : List Char} (h : afterString? cs = some r) :
    r.length < cs.length := by
  fun_induction afterString? cs with
  | case1 => simp at h
  | case2 => simp_all
  | case3 _ _ _ _ _ _ ih => have := ih h; simp only [List.length_cons]; omega
  | case4 => simp at h
  | case5 _ _ _ _ ih => have := ih h; simp only [List.length_cons]; omega
  | case6 => simp at h
  | case7 => simp at h
  | case8 _ _ _ _ _ _ ih => have := ih h; simp only [List.length_cons]; omega

/-- The first lexeme of a text without leading blanks, and what follows it. -/
def next? (c : Char) (rest : List Char) : Option (Lexeme × List Char) :=
  match Token.next? c rest with
  | some (t, r) => some (.token t, r)
  | none =>
    if c = '"' then (afterString? rest).map fun r => (.oddString, r)
    else if c = '-' then (Token.numeral? true rest).map fun p => (.oddNumber, p.2)
    else (Token.numeral? false (c :: rest)).map fun p => (.oddNumber, p.2)

theorem length_next? {c : Char} {rest r : List Char} {l : Lexeme}
    (h : next? c rest = some (l, r)) : r.length ≤ rest.length := by
  unfold next? at h
  split at h
  · next ht =>
    cases h
    exact Token.length_next? ht
  · split at h
    · obtain ⟨s, hs, e⟩ := Option.map_eq_some_iff.1 h
      cases e
      exact Nat.le_of_lt (length_afterString? hs)
    · split at h
      · obtain ⟨⟨n, s⟩, hs, e⟩ := Option.map_eq_some_iff.1 h
        cases e
        exact Nat.le_of_lt (Token.length_numeral? hs)
      · obtain ⟨⟨n, s⟩, hs, e⟩ := Option.map_eq_some_iff.1 h
        cases e
        exact Nat.le_of_lt_succ (Token.length_numeral? hs)

/-- The lexemes of a text. -/
def all? (cs : List Char) : Option (List Lexeme) :=
  match cs with
  | [] => some []
  | c :: rest =>
    if Token.isSpace c then all? rest
    else
      match h : next? c rest with
      | none => none
      | some (l, r) =>
        have := length_next? h
        (all? r).map (l :: ·)
termination_by cs.length

/-- How many arrays and objects are open behind a token, given how many are in front of it. -/
def depthBehind (depth : Nat) : Token → Nat
  | .openArray => depth + 1
  | .openObject => depth + 1
  | .closeArray => depth - 1
  | .closeObject => depth - 1
  | _ => depth

/-- Whether a token ends a member of the outermost object. -/
def endsMember (depth : Nat) : Token → Bool
  | .comma => depth == 1
  | _ => false

/-- The tokens that lexemes stand for. Odd scalars are replaced by others of their sort in members
that are passed over, which are those of the outermost object with names that do not matter. -/
def tokens? (names : List String) (depth : Nat) (passing : Bool) :
    List Lexeme → Option (List Token)
  | [] => some []
  | .token (.scalar (.string n)) :: .token .colon :: ls =>
    (tokens? names depth (if depth = 1 then !names.contains n else passing) ls).map
      (.scalar (.string n) :: .colon :: ·)
  | .token t :: ls =>
    (tokens? names (depthBehind depth t) (passing && !endsMember depth t) ls).map (t :: ·)
  | .oddString :: ls =>
    if passing then (tokens? names depth passing ls).map (.scalar (.string "") :: ·) else none
  | .oddNumber :: ls =>
    if passing then (tokens? names depth passing ls).map (.scalar .null :: ·) else none

end Lexeme

/-- The names of the members of the outermost object among tokens behind `depth` open arrays and
objects, repeated ones included. -/
def namesFrom (depth : Nat) : List Token → List String
  | [] => []
  | .scalar (.string n) :: .colon :: ts =>
    if depth = 1 then n :: namesFrom depth ts else namesFrom depth ts
  | t :: ts => namesFrom (Lexeme.depthBehind depth t) ts

/-- The values of the fields that matter of the record in a text. -/
def select? (names : List String) (text : String) : Option (List (Option Json)) := do
  let tokens ← Lexeme.tokens? names 0 false (← Lexeme.all? text.toList)
  if names.any fun n => decide (1 < (namesFrom 0 tokens).count n) then none
  match ← (Reader.value []).run text.length tokens with
  | .complete j [] => fields? names j
  | _ => none

end CodeConcepts.Json
