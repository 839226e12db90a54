import Salvage.Number.Binary64

/-! # Decimal numbers

A decimal is an integer times a power of ten. It is what a numeral denotes, and what a
double is written as.
-/

namespace Salvage

/-- The number `digits · 10 ^ exponent`. -/
structure Decimal where
  digits : Nat
  exponent : Int
deriving DecidableEq, Repr

/-- The value of a digit character, and of any other character zero. -/
def digitValue (c : Char) : Nat := if c.isDigit then c.toNat - '0'.toNat else 0

/-- The number that a run of digits denotes. -/
def ofDigits (ds : List Char) : Nat := ds.foldl (fun n c => 10 * n + digitValue c) 0

/-- Whether a minus sign stands in front, and what follows the sign if there is one. -/
def takeSign : List Char → Bool × List Char
  | '+' :: r => (false, r)
  | '-' :: r => (true, r)
  | s => (false, s)

theorem takeSign_length_le (s : List Char) : (takeSign s).2.length ≤ s.length := by
  fun_cases takeSign s <;> simp

/-- How many digits the number has; zero has one. -/
def digitCount (n : Nat) : Nat := (Nat.toDigits 10 n).length

namespace Decimal

/-- The double nearest to the decimal. An exponent that puts the value beyond the range of
doubles on either side decides alone. -/
def toBinary64? (x : Decimal) (negative : Bool) : Option Binary64 :=
  let size := x.exponent + digitCount x.digits
  if x.digits = 0 ∨ size < -330 then some (.zero negative)
  else if 310 < size then none
  else if 0 ≤ x.exponent then
    Binary64.ofUnits? negative (x.digits * Nat.pow 10 x.exponent.toNat * unitsPerOne) 1
  else
    Binary64.ofUnits? negative (x.digits * unitsPerOne) (Nat.pow 10 (-x.exponent).toNat)

/-- Moves the zeros at the end of the digits into the exponent. -/
def normalize (x : Decimal) : Decimal :=
  if x.digits ≠ 0 ∧ x.digits % 10 = 0 then normalize ⟨x.digits / 10, x.exponent + 1⟩ else x
termination_by x.digits
decreasing_by omega

/-- The power of ten of the first digit. -/
def leadingExponent (x : Decimal) : Int := x.exponent + digitCount x.digits - 1

end Decimal

end Salvage
