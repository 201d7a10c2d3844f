import CodeConcepts.Concept.Value
import CodeConcepts.Number.Numeral

/-!
# Number literals

A literal may have separators, a base prefix and the suffix `n` of big integers. Big integers become
decimal text. Integers of up to 128 bits are read exactly and then rounded; a number that is no
finite double keeps its text.
-/

namespace CodeConcepts.Typing

/-- The greatest integer that is read exactly. -/
def greatestInteger : Nat := Nat.pow 2 128 - 1

/-- The number that digits of a base stand for, if there are any and it is not too large. -/
def digitsInteger? (base : Nat) (ds : List Char) : Option Nat :=
  if ds.isEmpty || !ds.all (isDigitOf base) then none
  else
    let n := numeralValue base ds
    if n ≤ greatestInteger then some n else none

/-- An integer in decimal digits or behind one of the prefixes `0x`, `0o` and `0b`. -/
def integer? (cs : List Char) : Option Nat :=
  match cs with
  | '0' :: 'x' :: ds => digitsInteger? 16 ds
  | '0' :: 'X' :: ds => digitsInteger? 16 ds
  | '0' :: 'o' :: ds => digitsInteger? 8 ds
  | '0' :: 'O' :: ds => digitsInteger? 8 ds
  | '0' :: 'b' :: ds => digitsInteger? 2 ds
  | '0' :: 'B' :: ds => digitsInteger? 2 ds
  | ds => digitsInteger? 10 ds

/-- The exponent behind `e`, with its sign; no characters mean no exponent. -/
def exponent? (cs : List Char) : Option Int :=
  let digits (ds : List Char) : Option Nat :=
    if ds.isEmpty || !ds.all (isDigitOf 10) then none else some (numeralValue 10 ds)
  match cs with
  | [] => some 0
  | e :: cs =>
    if e ≠ 'e' ∧ e ≠ 'E' then none
    else
      match cs with
      | '-' :: ds => (digits ds).map fun n => -(n : Int)
      | '+' :: ds => (digits ds).map fun n => (n : Int)
      | ds => (digits ds).map fun n => (n : Int)

/-- A decimal with an optional fraction and exponent; there is a digit before or after the point. -/
def decimal? (cs : List Char) : Option Double :=
  let whole := cs.takeWhile (isDigitOf 10)
  let rest := cs.dropWhile (isDigitOf 10)
  let (fraction, rest) := match rest with
    | '.' :: rest => (rest.takeWhile (isDigitOf 10), rest.dropWhile (isDigitOf 10))
    | rest => ([], rest)
  if whole.isEmpty && fraction.isEmpty then none
  else
    match exponent? rest with
    | none => none
    | some e => Double.ofDecimal? (numeralValue 10 (whole ++ fraction)) (e - (fraction.length : Int))

/-- The double an ordinary number literal stands for. -/
def number? (cs : List Char) : Option Double :=
  match integer? cs with
  | some n => Double.ofNat? n
  | none => decimal? cs

/-- The value of a number literal. -/
def numberValue (text : String) : Value :=
  let cleaned := text.toList.filter (· ≠ '_')
  if cleaned.getLast? = some 'n' then
    let digits := cleaned.dropLast
    let decimal := match integer? digits with
      | some n => Nat.toDigits 10 n
      | none => digits
    .literal (.text (String.ofList decimal)) (.primitive "bigint")
  else
    let literal := match number? cleaned with
      | some x => .number x
      | none => .text text
    .literal literal (.primitive "number")

end CodeConcepts.Typing
