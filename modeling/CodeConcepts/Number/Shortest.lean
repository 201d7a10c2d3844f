import CodeConcepts.Number.Double

/-!
# Shortest decimals

The decimal of fewest digits that rounds to a given double, and among those the nearest one. The
numbers that round to a double fill an interval; its ends belong to it exactly when the significand
is even. For each number of digits only the two neighbours of the double on that decimal grid have
to be tried.
-/

namespace CodeConcepts

/-- A positive decimal `digits * 10 ^ exponent`. -/
structure Decimal where
  digits : Nat
  exponent : Int
deriving DecidableEq, Repr

namespace Double

/-- Twice the mid point between a double and the one above it, in units of a quarter of the last
place, and likewise for the one below. The gap below is half as wide under a power of two. -/
def quarterBounds (x : Double) : Nat × Nat :=
  let lower :=
    if x.significand = Nat.pow 2 (precision - 1) ∧ leastExponent < x.exponent then
      4 * x.significand - 1
    else 4 * x.significand - 2
  (lower, 4 * x.significand + 2)

/-- `digits * 10 ^ k` compared with `quarters * 2 ^ (e - 2)`, by cross multiplication. -/
def compareGrid (digits : Nat) (k : Int) (quarters : Nat) (e : Int) : Ordering :=
  let e := e - 2
  let left := digits * (if 0 ≤ k then Nat.pow 10 k.toNat else 1) *
    (if 0 ≤ e then 1 else Nat.pow 2 (-e).toNat)
  let right := quarters * (if 0 ≤ k then 1 else Nat.pow 10 (-k).toNat) *
    (if 0 ≤ e then Nat.pow 2 e.toNat else 1)
  compare left right

/-- Whether the decimal `digits * 10 ^ k` rounds to `x`. -/
def accepts (x : Double) (digits : Nat) (k : Int) : Bool :=
  let (lower, upper) := x.quarterBounds
  let closed := x.significand % 2 == 0
  let above := compareGrid digits k lower x.exponent
  let below := compareGrid digits k upper x.exponent
  (above == .gt || (closed && above == .eq)) && (below == .lt || (closed && below == .eq))

/-- The magnitude over `10 ^ k`, as a quotient of natural numbers. -/
def overPowerOfTen (x : Double) (k : Int) : Nat × Nat :=
  let (a, b) := x.magnitude
  if 0 ≤ k then (a, b * Nat.pow 10 k.toNat) else (a * Nat.pow 10 (-k).toNat, b)

/-- The neighbour on the grid `10 ^ k` that rounds to `x`, the nearer one if both do and the even
one if they are equally near. -/
def onGrid? (x : Double) (k : Int) : Option Nat :=
  let (a, b) := x.overPowerOfTen k
  let low := a / b
  let rest := a % b
  match x.accepts low k, x.accepts (low + 1) k with
  | true, true =>
    if 2 * rest < b then some low
    else if b < 2 * rest then some (low + 1)
    else some (low + low % 2)
  | true, false => some low
  | false, true => some (low + 1)
  | false, false => none

/-- The decimal exponent of the leading digit, searched from an estimate downwards. -/
def leadingExponent (x : Double) : Int :=
  let (a, b) := x.magnitude
  let estimate : Int := ((Nat.log2 a : Int) - (Nat.log2 b : Int) + 1) * 30103 / 100000 + 1
  let candidates := (List.range 4).map fun (i : Nat) => estimate - (i : Int)
  match candidates.find? fun p => let (n, d) := x.overPowerOfTen p; d ≤ n with
  | some p => p
  | none => estimate - 4

/-- The decimal without trailing zeros. -/
def stripZeros (d : Decimal) : Decimal :=
  if h : d.digits = 0 then d
  else if d.digits % 10 = 0 then stripZeros ⟨d.digits / 10, d.exponent + 1⟩ else d
termination_by d.digits
decreasing_by omega

/-- The shortest decimal that rounds to a double other than zero. Seventeen digits always do. -/
def shortest (x : Double) : Decimal :=
  let p := x.leadingExponent
  let found := (List.range 17).findSome? fun (i : Nat) =>
    let k := p - (i : Int)
    (x.onGrid? k).map fun digits => (⟨digits, k⟩ : Decimal)
  stripZeros (found.getD ⟨x.overPowerOfTen (p - 17) |>.1, p - 17⟩)

end Double

end CodeConcepts
