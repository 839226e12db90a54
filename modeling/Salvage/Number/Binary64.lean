/-! # Double precision numbers

A finite double is `significand · 2 ^ exponent` units of `2 ^ -1074`, with a sign. Every
operation computes its exact result as a ratio of natural numbers and rounds it once, to
the nearest double and on a tie to the even significand. A result beyond the largest
double is `none`.
-/

namespace Salvage

/-- The number of smallest doubles in one. -/
def unitsPerOne : Nat := Nat.pow 2 1074

structure Binary64 where
  negative : Bool
  significand : Nat
  exponent : Nat
  significand_lt : significand < Nat.pow 2 53
  normal : Nat.pow 2 52 ≤ significand ∨ exponent = 0
  exponent_le : exponent ≤ 2045
deriving DecidableEq

/-- The quotient rounded to the nearest integer, on a tie to the even one. -/
def roundDiv (num den : Nat) : Nat :=
  if 2 * (num % den) < den then num / den
  else if den < 2 * (num % den) then num / den + 1
  else num / den + num / den % 2

theorem div_le_roundDiv (num den : Nat) : num / den ≤ roundDiv num den := by
  simp only [roundDiv]; (repeat' split) <;> omega

theorem roundDiv_le (num den : Nat) : roundDiv num den ≤ num / den + 1 := by
  simp only [roundDiv]; (repeat' split) <;> omega

/-- The exponent at which a number of this integer part has at most 53 binary digits. -/
def fittingExponent (n : Nat) : Nat := n.log2 - 52

theorem div_pow_fittingExponent_lt (n : Nat) :
    n / Nat.pow 2 (fittingExponent n) < Nat.pow 2 53 := by
  simp only [Nat.pow_eq]
  by_cases hn : n = 0
  · simp [hn]
  · have hlt : n < 2 ^ (n.log2 + 1) := (Nat.log2_lt hn).1 (Nat.lt_succ_self _)
    rw [Nat.div_lt_iff_lt_mul (Nat.two_pow_pos _), ← Nat.pow_add]
    refine Nat.lt_of_lt_of_le hlt (Nat.pow_le_pow_right (by decide) ?_)
    simp only [fittingExponent]; omega

theorem le_div_pow_fittingExponent {n : Nat} (h : fittingExponent n ≠ 0) :
    Nat.pow 2 52 ≤ n / Nat.pow 2 (fittingExponent n) := by
  simp only [Nat.pow_eq]
  have hn : n ≠ 0 := by rintro rfl; simp [fittingExponent] at h
  rw [Nat.le_div_iff_mul_le (Nat.two_pow_pos _), ← Nat.pow_add]
  refine Nat.le_trans (Nat.pow_le_pow_right (by decide) ?_) (Nat.log2_self_le hn)
  simp only [fittingExponent] at h ⊢; omega

/-- The quotient at the exponent that fits it, rounded. -/
def fittedQuotient (num den : Nat) : Nat :=
  roundDiv num (den * Nat.pow 2 (fittingExponent (num / den)))

theorem fittedQuotient_lt {num den : Nat} (h : fittedQuotient num den ≠ Nat.pow 2 53) :
    fittedQuotient num den < Nat.pow 2 53 := by
  have hle : fittedQuotient num den ≤ num / (den * Nat.pow 2 (fittingExponent (num / den))) + 1 :=
    roundDiv_le ..
  have hlt := div_pow_fittingExponent_lt (num / den)
  rw [Nat.div_div_eq_div_mul] at hlt
  omega

theorem le_fittedQuotient (num den : Nat) :
    Nat.pow 2 52 ≤ fittedQuotient num den ∨ fittingExponent (num / den) = 0 := by
  by_cases h : fittingExponent (num / den) = 0
  · exact .inr h
  · have hle := le_div_pow_fittingExponent h
    rw [Nat.div_div_eq_div_mul] at hle
    exact .inl (Nat.le_trans hle (div_le_roundDiv ..))

namespace Binary64

def zero (negative : Bool) : Binary64 :=
  ⟨negative, 0, 0, by decide, .inr rfl, by decide⟩

def isZero (x : Binary64) : Bool := x.significand == 0

/-- The magnitude in units of `2 ^ -1074`. -/
def units (x : Binary64) : Nat := x.significand * Nat.pow 2 x.exponent

def withSign (x : Binary64) (negative : Bool) : Binary64 := { x with negative }

/-- The double nearest to `num / den` units of `2 ^ -1074`. -/
@[irreducible] def ofUnits? (negative : Bool) (num den : Nat) : Option Binary64 :=
  let e := fittingExponent (num / den)
  let q := fittedQuotient num den
  if full : q = Nat.pow 2 53 then
    if he : e + 1 ≤ 2045 then
      some ⟨negative, Nat.pow 2 52, e + 1, by decide, .inl (Nat.le_refl _), he⟩
    else none
  else if he : e ≤ 2045 then
    some ⟨negative, q, e, fittedQuotient_lt full, le_fittedQuotient num den, he⟩
  else none

def ofNat? (n : Nat) : Option Binary64 := ofUnits? false (n * unitsPerOne) 1

def mul? (x y : Binary64) : Option Binary64 :=
  ofUnits? (x.negative != y.negative) (x.units * y.units) unitsPerOne

/-- The quotient by a number that is not zero. -/
def div? (x y : Binary64) : Option Binary64 :=
  ofUnits? (x.negative != y.negative) (x.units * unitsPerOne) y.units

/-- The double nearest to the power of ten. -/
def tenPow? (n : Nat) : Option Binary64 := ofNat? (Nat.pow 10 n)

end Binary64

end Salvage
