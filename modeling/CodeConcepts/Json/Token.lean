import CodeConcepts.Json.Basic
import CodeConcepts.Number.Numeral

/-!
# JSON tokens

The lexical part of the JSON reader. A text is cut into brackets, separators and scalars; blanks
between them are dropped. A string may not hold a raw control character or half a surrogate pair.
A number without point and exponent is an integer if it fits 64 bits; any other number is read as a
significand of at most 64 bits scaled by a power of ten, and must not be beyond the doubles.
-/

namespace CodeConcepts.Json

/-- A token of a JSON text. -/
inductive Token where
  | openArray
  | closeArray
  | openObject
  | closeObject
  | colon
  | comma
  /-- A string, number, truth value or null. -/
  | scalar (value : Json)
deriving Repr

namespace Token

/-- The four blanks of JSON. -/
def isSpace (c : Char) : Bool := c == ' ' || c == '\n' || c == '\t' || c == '\r'

/-! ## Strings -/

/-- The number four hexadecimal digits stand for. -/
def hex4? (a b c d : Char) : Option Nat :=
  if [a, b, c, d].all (isDigitOf 16) then some (numeralValue 16 [a, b, c, d]) else none

/-- The character a single-letter escape stands for. -/
def escaped? : Char → Option Char
  | '"' => some '"'
  | '\\' => some '\\'
  | '/' => some '/'
  | 'b' => some '\x08'
  | 'f' => some '\x0c'
  | 'n' => some '\n'
  | 'r' => some '\r'
  | 't' => some '\t'
  | _ => none

/-- The character of a surrogate pair. -/
def ofSurrogates (high low : Nat) : Char :=
  Char.ofNat (0x10000 + (high - 0xd800) * 0x400 + (low - 0xdc00))

/-- The content of a string up to its closing quote, and what follows the quote. -/
def string? : List Char → Option (List Char × List Char)
  | [] => none
  | '"' :: rest => some ([], rest)
  | '\\' :: 'u' :: a :: b :: c :: d :: rest =>
    match hex4? a b c d with
    | none => none
    | some high =>
      if 0xd800 ≤ high ∧ high ≤ 0xdbff then
        match rest with
        | '\\' :: 'u' :: e :: f :: g :: h :: rest =>
          match hex4? e f g h with
          | none => none
          | some low =>
            if 0xdc00 ≤ low ∧ low ≤ 0xdfff then
              (string? rest).map fun (s, r) => (ofSurrogates high low :: s, r)
            else none
        | _ => none
      else if 0xdc00 ≤ high ∧ high ≤ 0xdfff then none
      else (string? rest).map fun (s, r) => (Char.ofNat high :: s, r)
  | '\\' :: e :: rest =>
    match escaped? e with
    | none => none
    | some c => (string? rest).map fun (s, r) => (c :: s, r)
  | c :: rest => if c.toNat < 0x20 then none else (string? rest).map fun (s, r) => (c :: s, r)

theorem length_string? {cs s r : List Char} (h : string? cs = some (s, r)) :
    r.length < cs.length := by
  fun_induction string? cs generalizing s with
  | case1 => simp at h
  | case2 => simp_all
  | case3 => simp at h
  | case4 => simp at h
  | case5 _ _ _ _ _ _ _ _ _ _ _ _ _ _ _ ih =>
    simp only [Option.map_eq_some_iff, Prod.exists, Prod.mk.injEq] at h
    obtain ⟨a, b, hab, -, rfl⟩ := h
    have := ih hab
    simp only [List.length_cons]; omega
  | case6 => simp at h
  | case7 => simp at h
  | case8 => simp at h
  | case9 _ _ _ _ _ _ _ _ _ ih =>
    simp only [Option.map_eq_some_iff, Prod.exists, Prod.mk.injEq] at h
    obtain ⟨a, b, hab, -, rfl⟩ := h
    have := ih hab
    simp only [List.length_cons]; omega
  | case10 => simp at h
  | case11 _ _ _ _ _ ih =>
    simp only [Option.map_eq_some_iff, Prod.exists, Prod.mk.injEq] at h
    obtain ⟨a, b, hab, -, rfl⟩ := h
    have := ih hab
    simp only [List.length_cons]; omega
  | case12 => simp at h
  | case13 _ _ _ _ _ _ ih =>
    simp only [Option.map_eq_some_iff, Prod.exists, Prod.mk.injEq] at h
    obtain ⟨a, b, hab, -, rfl⟩ := h
    have := ih hab
    simp only [List.length_cons]; omega

/-! ## Numbers -/

/-- A decimal digit. -/
def isDigit (c : Char) : Bool := '0' ≤ c && c ≤ '9'

/-- The parts of a written number. -/
structure Numeral where
  negative : Bool
  whole : List Char
  fraction : Option (List Char)
  /-- Sign and digits of the exponent; `true` is for a negative one. -/
  exponent : Option (Bool × List Char)
deriving Repr

/-- The digits of the whole part: a single zero or digits that start with another one. -/
def whole? (cs : List Char) : Option (List Char × List Char) :=
  match cs with
  | '0' :: rest => some (['0'], rest)
  | _ =>
    match cs.takeWhile isDigit with
    | [] => none
    | ds => some (ds, cs.dropWhile isDigit)

/-- The digits after a point, if there is one. -/
def fraction? (cs : List Char) : Option (Option (List Char) × List Char) :=
  match cs with
  | '.' :: rest =>
    match rest.takeWhile isDigit with
    | [] => none
    | ds => some (some ds, rest.dropWhile isDigit)
  | _ => some (none, cs)

/-- The digits of an exponent. -/
def exponentDigits? (negative : Bool) (cs : List Char) :
    Option (Option (Bool × List Char) × List Char) :=
  match cs.takeWhile isDigit with
  | [] => none
  | ds => some (some (negative, ds), cs.dropWhile isDigit)

/-- The exponent, if there is one. -/
def exponent? (cs : List Char) : Option (Option (Bool × List Char) × List Char) :=
  match cs with
  | 'e' :: '-' :: rest => exponentDigits? true rest
  | 'E' :: '-' :: rest => exponentDigits? true rest
  | 'e' :: '+' :: rest => exponentDigits? false rest
  | 'E' :: '+' :: rest => exponentDigits? false rest
  | 'e' :: rest => exponentDigits? false rest
  | 'E' :: rest => exponentDigits? false rest
  | _ => some (none, cs)

/-- A number after its sign, and what follows it. -/
def numeral? (negative : Bool) (cs : List Char) : Option (Numeral × List Char) := do
  let (whole, cs) ← whole? cs
  let (fraction, cs) ← fraction? cs
  let (exponent, cs) ← exponent? cs
  return (⟨negative, whole, fraction, exponent⟩, cs)

/-- The greatest integer of 64 bits. -/
def greatestWord : Nat := Nat.pow 2 64 - 1

/-- Appends digits to a significand while it fits 64 bits; the rest is what no longer fits. -/
def accumulate (n : Nat) : List Char → Nat × List Char
  | [] => (n, [])
  | c :: cs =>
    let m := n * 10 + digitValue c
    if greatestWord < m then (n, c :: cs) else accumulate m cs

/-- The greatest exponent that is taken at its value. -/
def greatestExponent : Nat := Nat.pow 2 31 - 1

/-- The double a number with point or exponent, or one beyond 64 bits, stands for. -/
def Numeral.double? (n : Numeral) (significand : Nat) (scale : Int) : Option Double :=
  let fraction := n.fraction.getD []
  let (significand, dropped) := accumulate significand fraction
  let scale : Int := scale - ((fraction.length - dropped.length : Nat) : Int)
  match n.exponent with
  | none => Double.ofParts? n.negative significand scale
  | some (negative, ds) =>
    let e := numeralValue 10 ds
    if greatestExponent < e then
      if significand ≠ 0 ∧ negative = false then none else some (Double.zero n.negative)
    else
      Double.ofParts? n.negative significand (if negative then scale - (e : Int) else scale + (e : Int))

/-- The value of a number. A negative integer has 63 bits, and `-0` is a double. -/
def Numeral.value? (n : Numeral) : Option Json :=
  let (significand, dropped) := accumulate 0 n.whole
  if dropped.isEmpty ∧ n.fraction.isNone ∧ n.exponent.isNone then
    if n.negative = false then some (.int (significand : Int))
    else if significand = 0 ∨ Nat.pow 2 63 < significand then
      (Double.ofParts? true significand 0).map .double
    else some (.int (-(significand : Int)))
  else (n.double? significand (dropped.length : Int)).map .double

theorem length_whole? {cs ds r : List Char} (h : whole? cs = some (ds, r)) :
    r.length < cs.length := by
  unfold whole? at h
  split at h
  · simp at h; simp [h.2]
  · split at h
    · simp at h
    · next hne =>
      simp only [Option.some.injEq, Prod.mk.injEq] at h
      rw [← h.2]
      cases cs with
      | nil => simp at hne
      | cons c cs =>
        by_cases hc : isDigit c
        · have := (List.dropWhile_suffix isDigit (l := cs)).length_le
          simp [hc]; omega
        · simp [hc] at hne

theorem length_fraction? {cs r : List Char} {f : Option (List Char)}
    (h : fraction? cs = some (f, r)) : r.length ≤ cs.length := by
  unfold fraction? at h
  split at h
  · split at h
    · simp at h
    · next rest _ _ =>
      simp only [Option.some.injEq, Prod.mk.injEq] at h
      have := (List.dropWhile_suffix isDigit (l := rest)).length_le
      rw [← h.2]; simp only [List.length_cons]; omega
  · simp at h; simp [h.2]

theorem length_exponentDigits? {b : Bool} {cs r : List Char} {e : Option (Bool × List Char)}
    (h : exponentDigits? b cs = some (e, r)) : r.length ≤ cs.length := by
  unfold exponentDigits? at h
  split at h
  · simp at h
  · simp only [Option.some.injEq, Prod.mk.injEq] at h
    rw [← h.2]
    exact (List.dropWhile_suffix isDigit).length_le

theorem length_exponent? {cs r : List Char} {e : Option (Bool × List Char)}
    (h : exponent? cs = some (e, r)) : r.length ≤ cs.length := by
  unfold exponent? at h
  split at h
  case h_7 => simp at h; simp [h.2]
  all_goals
    have le := length_exponentDigits? h
    simp only [List.length_cons]
    omega

theorem length_numeral? {b : Bool} {cs r : List Char} {n : Numeral}
    (h : numeral? b cs = some (n, r)) : r.length < cs.length := by
  simp only [numeral?, Option.bind_eq_bind, Option.bind_eq_some_iff, Prod.exists, Option.pure_def,
    Option.some.injEq, Prod.mk.injEq] at h
  obtain ⟨_, _, h1, _, _, h2, _, _, h3, -, rfl⟩ := h
  have := length_whole? h1
  have := length_fraction? h2
  have := length_exponent? h3
  omega

/-! ## Texts -/

/-- The first token of a text without leading blanks, and what follows it. -/
def next? (c : Char) (rest : List Char) : Option (Token × List Char) :=
  match c, rest with
  | '[', _ => some (.openArray, rest)
  | ']', _ => some (.closeArray, rest)
  | '\x7b', _ => some (.openObject, rest)
  | '\x7d', _ => some (.closeObject, rest)
  | ':', _ => some (.colon, rest)
  | ',', _ => some (.comma, rest)
  | '"', _ => (string? rest).map fun (s, r) => (.scalar (.string (String.ofList s)), r)
  | 'n', 'u' :: 'l' :: 'l' :: rest => some (.scalar .null, rest)
  | 't', 'r' :: 'u' :: 'e' :: rest => some (.scalar (.bool true), rest)
  | 'f', 'a' :: 'l' :: 's' :: 'e' :: rest => some (.scalar (.bool false), rest)
  | '-', _ => (numeral? true rest).bind fun (n, r) => n.value?.map fun v => (.scalar v, r)
  | _, _ => (numeral? false (c :: rest)).bind fun (n, r) => n.value?.map fun v => (.scalar v, r)

theorem length_next? {c : Char} {rest r : List Char} {t : Token} (h : next? c rest = some (t, r)) :
    r.length ≤ rest.length := by
  unfold next? at h
  split at h
  case h_7 =>
    simp only [Option.map_eq_some_iff, Prod.exists, Prod.mk.injEq] at h
    obtain ⟨_, _, h, -, rfl⟩ := h
    exact Nat.le_of_lt (length_string? h)
  case h_11 =>
    simp only [Option.bind_eq_some_iff, Option.map_eq_some_iff, Prod.exists, Prod.mk.injEq] at h
    obtain ⟨_, _, h, _, -, -, rfl⟩ := h
    exact Nat.le_of_lt (length_numeral? h)
  case h_12 =>
    simp only [Option.bind_eq_some_iff, Option.map_eq_some_iff, Prod.exists, Prod.mk.injEq] at h
    obtain ⟨_, _, h, _, -, -, rfl⟩ := h
    have := length_numeral? h
    simp only [List.length_cons] at this
    omega
  all_goals grind

/-- The tokens of a text. -/
def all? (cs : List Char) : Option (List Token) :=
  match cs with
  | [] => some []
  | c :: rest =>
    if isSpace c then all? rest
    else
      match h : next? c rest with
      | none => none
      | some (t, r) =>
        have := length_next? h
        (all? r).map (t :: ·)
termination_by cs.length

end Token

end CodeConcepts.Json
