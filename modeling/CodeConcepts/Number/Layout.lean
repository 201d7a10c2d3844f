import CodeConcepts.Number.Shortest

/-!
# Layout of numbers

How the digits of a double are set out as text: positionally within a range of magnitudes and with
an exponent outside it.
-/

namespace CodeConcepts

/-- The decisions of one number format. -/
structure NumberLayout where
  /-- The least exponent of the leading digit that is written positionally. -/
  leastPositional : Int
  /-- The first exponent of the leading digit that is no longer written positionally. -/
  firstScientific : Int
  /-- What stands before a non-negative exponent. -/
  positiveMark : String

namespace NumberLayout

/-- `n` in decimal digits. -/
def digitsOf (n : Nat) : List Char := Nat.toDigits 10 n

/-- Digits with a point after the first `n` of them and a digit on either side of it. -/
def withPoint (n : Nat) (ds : List Char) : List Char :=
  let whole := ds.take n ++ List.replicate (n - ds.length) '0'
  let fraction := ds.drop n
  whole ++ '.' :: (if fraction.isEmpty then ['0'] else fraction)

/-- The digits of a decimal, positionally or with an exponent. -/
def magnitude (layout : NumberLayout) (d : Decimal) : List Char :=
  let ds := digitsOf d.digits
  let leading : Int := d.exponent + (ds.length : Int) - 1
  if layout.leastPositional ≤ leading ∧ leading < layout.firstScientific then
    if leading < 0 then '0' :: '.' :: (List.replicate (-leading - 1).toNat '0' ++ ds)
    else withPoint (leading.toNat + 1) ds
  else
    let mantissa := match ds with
      | [] => []
      | [c] => [c]
      | c :: cs => c :: '.' :: cs
    let mark := if leading < 0 then "-" else layout.positiveMark
    mantissa ++ 'e' :: mark.toList ++ digitsOf leading.natAbs

/-- The text of a double. -/
def render (layout : NumberLayout) (x : Double) : String :=
  let body := if x.isZero then ['0', '.', '0'] else layout.magnitude x.shortest
  String.ofList (if x.negative then '-' :: body else body)

end NumberLayout

end CodeConcepts
