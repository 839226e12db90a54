import Salvage.Number.Decimal

/-! # The shortest decimal of a double

The decimals that are read back as a double fill an interval around it, which includes
its ends when the significand is even. Of the decimal grids with 1, 2, … 17 digits the
first that has a point in the interval gives the digits, and of two such points the nearer
one, on a tie the even one.
-/

namespace Salvage

/-- The numbers that round to one double, in quarters of the smallest double. -/
structure RoundingInterval where
  low : Nat
  value : Nat
  high : Nat
  closed : Bool

/-- The number of quarters of the smallest double in one. -/
def quartersPerOne : Nat := 4 * unitsPerOne

/-- Below a power of two the doubles lie twice as close. -/
def Binary64.interval (x : Binary64) : RoundingInterval :=
  let below := if x.significand = Nat.pow 2 52 ∧ x.exponent ≠ 0 then 1 else 2
  { low := (4 * x.significand - below) * Nat.pow 2 x.exponent
    value := 4 * x.significand * Nat.pow 2 x.exponent
    high := (4 * x.significand + 2) * Nat.pow 2 x.exponent
    closed := x.significand % 2 == 0 }

/-- The power of ten of the first digit of a positive number of quarters. -/
def firstDigitExponent (quarters : Nat) : Int :=
  if quartersPerOne ≤ quarters then digitCount (quarters / quartersPerOne) - 1
  else -digitCount ((quartersPerOne - 1) / quarters)

namespace RoundingInterval

/-- The step `10 ^ exponent` in quarters, as a ratio. -/
def step (exponent : Int) : Nat × Nat :=
  if 0 ≤ exponent then (Nat.pow 10 exponent.toNat * quartersPerOne, 1)
  else (quartersPerOne, Nat.pow 10 (-exponent).toNat)

/-- The decimal rounds to the double. -/
def holds (i : RoundingInterval) (x : Decimal) : Bool :=
  let (num, den) := step x.exponent
  let point := x.digits * num
  if i.closed then i.low * den ≤ point && point ≤ i.high * den
  else i.low * den < point && point < i.high * den

/-- The grid point at or below the value. -/
def floor (i : RoundingInterval) (exponent : Int) : Decimal :=
  let (num, den) := step exponent
  ⟨i.value * den / num, exponent⟩

/-- The grid point above `floor`. -/
def next (x : Decimal) : Decimal := { x with digits := x.digits + 1 }

/-- The nearer of `floor` and the grid point above it. -/
def nearest (i : RoundingInterval) (exponent : Int) : Decimal :=
  let (num, den) := step exponent
  ⟨roundDiv (i.value * den) num, exponent⟩

/-- The point of the grid that is read back as the double, if there is one. -/
def onGrid? (i : RoundingInterval) (exponent : Int) : Option Decimal :=
  let below := i.floor exponent
  match i.holds below, i.holds (next below) with
  | true, true => some (i.nearest exponent)
  | true, false => some below
  | false, true => some (next below)
  | false, false => none

/-- Tries grids from the exponent downwards, and takes the nearest point of the last. -/
def firstHit (i : RoundingInterval) : Nat → Int → Decimal
  | 0, exponent => i.nearest exponent
  | finer + 1, exponent => (i.onGrid? exponent).getD (i.firstHit finer (exponent - 1))

end RoundingInterval

/-- The shortest decimal that is read back as the double, which is not zero. -/
def Binary64.shortest (x : Binary64) : Decimal :=
  (x.interval.firstHit 16 (firstDigitExponent x.interval.value)).normalize

end Salvage
