/-!
# Doubles

The finite double-precision numbers, held as sign, significand and binary exponent, with exact
arithmetic underneath: every operation computes the exact rational result and rounds it once, to
nearest with ties to even. A result beyond the largest double is `none`.
-/

namespace CodeConcepts

/-- A finite double `± significand * 2 ^ exponent`. `Double.round?` gives the canonical form: either
the significand has 53 bits or the exponent is the least one, -1074. -/
structure Double where
  negative : Bool
  significand : Nat
  exponent : Int
deriving DecidableEq, Repr

namespace Double

/-- Number of bits of a full significand. -/
def precision : Nat := 53

/-- The least binary exponent, that of the subnormal numbers. -/
def leastExponent : Int := -1074

/-- The greatest binary exponent of a finite double. -/
def greatestExponent : Int := 971

/-- `num / den` rounded to the nearest natural number, ties to even. -/
def roundQuotient (num den : Nat) : Nat :=
  let q := num / den
  let r := num % den
  if 2 * r < den then q
  else if den < 2 * r then q + 1
  else q + q % 2

/-- `num / (den * 2 ^ e)` as a quotient of natural numbers. -/
def scaleDown (num den : Nat) (e : Int) : Nat × Nat :=
  if 0 ≤ e then (num, den * Nat.pow 2 e.toNat) else (num * Nat.pow 2 (-e).toNat, den)

/-- The exponent at which `num / den` has a significand of at most 53 bits, and of exactly 53
unless the exponent is the least one. -/
def fittingExponent (num den : Nat) : Int :=
  let guess : Int := (Nat.log2 num : Int) - (Nat.log2 den : Int) - precision
  let (n, d) := scaleDown num den guess
  max leastExponent (if d * Nat.pow 2 precision ≤ n then guess + 1 else guess)

/-- The double nearest to `± num / den`, or `none` when it is out of range. -/
def round? (negative : Bool) (num den : Nat) : Option Double :=
  if num = 0 then some ⟨negative, 0, leastExponent⟩
  else
    let e := fittingExponent num den
    let (n, d) := scaleDown num den e
    let s := roundQuotient n d
    let (s, e) := if s = Nat.pow 2 precision then (Nat.pow 2 (precision - 1), e + 1) else (s, e)
    if greatestExponent < e then none else some ⟨negative, s, e⟩

/-- Zero with the given sign. -/
def zero (negative : Bool) : Double := ⟨negative, 0, leastExponent⟩

/-- The double nearest to a natural number. -/
def ofNat? (n : Nat) : Option Double := round? false n 1

/-- The double nearest to an integer. -/
def ofInt? (n : Int) : Option Double := round? (n < 0) n.natAbs 1

/-- The magnitude as a quotient of natural numbers. -/
def magnitude (x : Double) : Nat × Nat :=
  if 0 ≤ x.exponent then (x.significand * Nat.pow 2 x.exponent.toNat, 1)
  else (x.significand, Nat.pow 2 (-x.exponent).toNat)

/-- The number with the other sign. -/
def neg (x : Double) : Double := { x with negative := !x.negative }

/-- The rounded product. -/
def mul? (x y : Double) : Option Double :=
  let (a, b) := x.magnitude
  let (c, d) := y.magnitude
  round? (x.negative != y.negative) (a * c) (b * d)

/-- The rounded quotient by a number other than zero. -/
def div? (x y : Double) : Option Double :=
  let (a, b) := x.magnitude
  let (c, d) := y.magnitude
  round? (x.negative != y.negative) (a * d) (b * c)

/-- Whether the number is zero of either sign. -/
def isZero (x : Double) : Bool := x.significand == 0

end Double

end CodeConcepts
