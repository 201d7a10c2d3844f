import CodeConcepts.Number.Double

/-!
# Numerals

Reading digits. `Double.ofDecimal?` rounds a decimal once, so it is the nearest double;
`Double.ofParts?` rounds the significand and the scaling by a power of ten separately, as a fast
reader does.
-/

namespace CodeConcepts

/-- The value of a digit in some base up to sixteen. -/
def digitValue (c : Char) : Nat :=
  if '0' ≤ c ∧ c ≤ '9' then c.toNat - '0'.toNat
  else if 'a' ≤ c ∧ c ≤ 'f' then c.toNat - 'a'.toNat + 10
  else if 'A' ≤ c ∧ c ≤ 'F' then c.toNat - 'A'.toNat + 10
  else 16

/-- Whether a character is a digit of the base. -/
def isDigitOf (base : Nat) (c : Char) : Bool := digitValue c < base

/-- The number that digits of a base stand for. -/
def numeralValue (base : Nat) (ds : List Char) : Nat :=
  ds.foldl (fun n c => n * base + digitValue c) 0

namespace Double

/-- The double nearest to `digits * 10 ^ exponent`, or `none` when it is out of range. Magnitudes
far outside the range of doubles are settled by their number of digits. -/
def ofDecimal? (digits : Nat) (exponent : Int) : Option Double :=
  let leading : Int := ((Nat.toDigits 10 digits).length : Int) + exponent
  if digits = 0 ∨ leading < -400 then some (zero false)
  else if 400 < leading then none
  else if 0 ≤ exponent then round? false (digits * Nat.pow 10 exponent.toNat) 1
  else round? false digits (Nat.pow 10 (-exponent).toNat)

/-- The largest power of ten that is a finite double. -/
def greatestPower : Nat := 308

/-- The double nearest to a power of ten up to `10 ^ greatestPower`. -/
@[irreducible] def powerOfTen (k : Nat) : Double := (ofNat? (Nat.pow 10 k)).getD (zero false)

/-- `x / 10 ^ k`, rounding after each division by at most `10 ^ greatestPower`. -/
def unscaleByTen? (x : Double) (k : Nat) : Option Double :=
  if x.isZero then some x
  else
    match x.div? (powerOfTen (min k greatestPower)) with
    | none => none
    | some y => if _h : greatestPower < k then unscaleByTen? y (k - greatestPower) else some y
termination_by k
decreasing_by simp only [greatestPower] at *; omega

/-- `x * 10 ^ exponent`, rounding after each step. -/
def scaleByTen? (x : Double) (exponent : Int) : Option Double :=
  if exponent < 0 then x.unscaleByTen? exponent.natAbs
  else if x.isZero then some x
  else if greatestPower < exponent.natAbs then none
  else x.mul? (powerOfTen exponent.natAbs)

/-- A significand of at most 64 bits scaled by a power of ten. -/
def ofParts? (negative : Bool) (significand : Nat) (exponent : Int) : Option Double := do
  let x ← (← ofNat? significand).scaleByTen? exponent
  return if negative then x.neg else x

end Double

end CodeConcepts
