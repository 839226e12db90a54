import Salvage.Json.Basic
import Salvage.Json.Failure
import Salvage.Number.Decimal

/-! # Numerals

Digits are collected in a word of 64 bits. Digits of the integer part that no longer fit
only raise the exponent, and digits of the fraction that no longer fit are dropped. The
double is then the collected integer times or divided by a power of ten, each step
rounded on its own.
-/

namespace Salvage.Json

/-- What can be collected in a word of 64 bits. -/
def wordBound : Nat := Nat.pow 2 64

/-- Continues the integer part from the number read so far. -/
def integerPart (n : Nat) : List Char → Decimal × List Char
  | [] => (⟨n, 0⟩, [])
  | c :: r =>
    if c.isDigit then
      if 10 * n + digitValue c < wordBound then integerPart (10 * n + digitValue c) r
      else (⟨n, 1 + (r.takeWhile Char.isDigit).length⟩, r.dropWhile Char.isDigit)
    else (⟨n, 0⟩, c :: r)

/-- Continues a fraction from the decimal read so far. -/
def fractionPart (x : Decimal) : List Char → Decimal × List Char
  | [] => (x, [])
  | c :: r =>
    if c.isDigit then
      if 10 * x.digits + digitValue c < wordBound then
        fractionPart ⟨10 * x.digits + digitValue c, x.exponent - 1⟩ r
      else (x, r.dropWhile Char.isDigit)
    else (x, c :: r)

theorem length_dropWhile_le {p : Char → Bool} (s : List Char) :
    (s.dropWhile p).length ≤ s.length := (List.dropWhile_sublist p).length_le

theorem integerPart_length_le (n : Nat) (s : List Char) :
    (integerPart n s).2.length ≤ s.length := by
  fun_induction integerPart n s with
  | case1 => simp
  | case2 n c r _ _ ih => exact Nat.le_succ_of_le ih
  | case3 n c r => exact Nat.le_succ_of_le (length_dropWhile_le r)
  | case4 => simp

theorem fractionPart_length_le (x : Decimal) (s : List Char) :
    (fractionPart x s).2.length ≤ s.length := by
  fun_induction fractionPart x s with
  | case1 => simp
  | case2 x c r _ _ ih => exact Nat.le_succ_of_le ih
  | case3 x c r => exact Nat.le_succ_of_le (length_dropWhile_le r)
  | case4 => simp

/-- The largest power of ten that is a double. -/
def largestTenPower : Nat := 308

/-- The double times a power of ten. Below the smallest power there are two divisions, and
beyond those nothing is left of a number that was collected in a word. -/
def scaleTen? (x : Binary64) (exponent : Int) : Option Binary64 :=
  if largestTenPower < exponent then
    if x.isZero then some x else none
  else if 0 ≤ exponent then (Binary64.tenPow? exponent.toNat).bind x.mul?
  else
    let n := (-exponent).toNat
    if n ≤ largestTenPower then (Binary64.tenPow? n).bind x.div?
    else if n ≤ 2 * largestTenPower then do
      let y ← (Binary64.tenPow? largestTenPower).bind x.div?
      (Binary64.tenPow? (n - largestTenPower)).bind y.div?
    else some (.zero x.negative)

/-- The double that a collected decimal stands for. -/
def collected? (negative : Bool) (x : Decimal) : Option Binary64 := do
  let y ← scaleTen? (← Binary64.ofNat? x.digits) x.exponent
  return y.withSign negative

/-- The number read, and what follows it. -/
abbrev Reading := Except Failure (Number × List Char)

def floatReading (negative : Bool) (x : Decimal) (rest : List Char) : Reading :=
  (collected? negative x).elim (.error (.before .numberOutOfRange rest)) fun y =>
    .ok (.float y, rest)

/-- The bound of a written exponent. -/
def exponentBound : Nat := Nat.pow 2 31

/-- Continues the digits of an exponent from the number read so far. An exponent beyond
the bound makes zero or, when `grows` says that the number is too large, a failure. -/
def exponentDigits (negative : Bool) (x : Decimal) (down grows : Bool) (n : Nat) :
    List Char → Reading
  | [] => floatReading negative ⟨x.digits, x.exponent + if down then -(n : Int) else n⟩ []
  | c :: r =>
    if c.isDigit then
      if 10 * n + digitValue c < exponentBound then
        exponentDigits negative x down grows (10 * n + digitValue c) r
      else if grows then .error (.before .numberOutOfRange r)
      else .ok (.float (.zero negative), r.dropWhile Char.isDigit)
    else floatReading negative ⟨x.digits, x.exponent + if down then -(n : Int) else n⟩ (c :: r)

/-- Continues behind the exponent mark. -/
def exponentPart (negative : Bool) (x : Decimal) (s : List Char) : Reading :=
  let (down, t) := takeSign s
  match t with
  | [] => .error (.before .endInValue [])
  | c :: r =>
    if c.isDigit then
      exponentDigits negative x down (!down && x.digits != 0) (digitValue c) r
    else .error (.behindFirst .invalidNumber (c :: r))

def isExponentMark (c : Char) : Bool := c == 'e' || c == 'E'

/-- An exponent if there is one. -/
def exponentOrEnd (negative : Bool) (x : Decimal) : List Char → Reading
  | [] => floatReading negative x []
  | c :: r =>
    if isExponentMark c then exponentPart negative x r else floatReading negative x (c :: r)

/-- Continues behind the point. -/
def fraction (negative : Bool) (x : Decimal) : List Char → Reading
  | [] => .error (.before .endInValue [])
  | c :: r =>
    if c.isDigit then
      let (y, rest) := fractionPart x (c :: r)
      exponentOrEnd negative y rest
    else .error (.behindFirst .invalidNumber (c :: r))

/-- An integer that ends here, as a double if it is out of range or a negative zero. -/
def integerReading (negative : Bool) (x : Decimal) (rest : List Char) : Reading :=
  if x.exponent ≠ 0 then floatReading negative x rest
  else if !negative then .ok (.integer x.digits, rest)
  else if x.digits ≠ 0 ∧ x.digits ≤ Nat.pow 2 63 then .ok (.integer (-x.digits), rest)
  else floatReading negative x rest

/-- Continues behind the integer part. -/
def afterInteger (negative : Bool) (x : Decimal) : List Char → Reading
  | [] => integerReading negative x []
  | c :: r =>
    if c = '.' then fraction negative x r
    else if isExponentMark c then exponentPart negative x r
    else integerReading negative x (c :: r)

/-- A number without its minus sign. -/
def numeral (negative : Bool) : List Char → Reading
  | [] => .error (.before .endInValue [])
  | c :: r =>
    if c = '0' then
      match r with
      | d :: t =>
        if d.isDigit then .error (.behindFirst .invalidNumber (d :: t))
        else afterInteger negative ⟨0, 0⟩ (d :: t)
      | [] => afterInteger negative ⟨0, 0⟩ []
    else if c.isDigit then
      let (x, rest) := integerPart (digitValue c) r
      afterInteger negative x rest
    else .error (.behindFirst .invalidNumber (c :: r))

/-! Each part leaves no more text than it was given, so a numeral leaves less. -/

theorem floatReading_rest {negative : Bool} {x : Decimal} {s r : List Char} {n : Number}
    (h : floatReading negative x s = .ok (n, r)) : r = s := by
  unfold floatReading at h
  cases hy : collected? negative x <;> simp_all

theorem exponentDigits_length_le {negative : Bool} {x : Decimal} {down grows : Bool} {k : Nat}
    {s r : List Char} {n : Number} (h : exponentDigits negative x down grows k s = .ok (n, r)) :
    r.length ≤ s.length := by
  fun_induction exponentDigits negative x down grows k s with
  | case1 => simp [floatReading_rest h]
  | case2 k c t _ _ ih => exact Nat.le_succ_of_le (ih h)
  | case3 => simp at h
  | case4 k c t =>
    obtain ⟨-, rfl⟩ := Prod.mk.inj (Except.ok.inj h)
    exact Nat.le_succ_of_le (length_dropWhile_le t)
  | case5 => simp [floatReading_rest h]

theorem exponentPart_length_le {negative : Bool} {x : Decimal} {s r : List Char} {n : Number}
    (h : exponentPart negative x s = .ok (n, r)) : r.length ≤ s.length := by
  have hsign := takeSign_length_le s
  simp only [exponentPart] at h
  split at h
  · simp at h
  · rename_i c t ht
    split at h
    · have := exponentDigits_length_le h
      simp only [ht, List.length_cons] at hsign
      omega
    · simp at h

theorem exponentOrEnd_length_le {negative : Bool} {x : Decimal} {s r : List Char} {n : Number}
    (h : exponentOrEnd negative x s = .ok (n, r)) : r.length ≤ s.length := by
  fun_cases exponentOrEnd negative x s with
  | case1 => simp_all [exponentOrEnd, floatReading_rest h]
  | case2 c t hc =>
    simp only [exponentOrEnd, hc] at h
    exact Nat.le_succ_of_le (exponentPart_length_le h)
  | case3 c t hc =>
    simp only [exponentOrEnd, hc] at h
    simp [floatReading_rest h]

theorem fraction_length_le {negative : Bool} {x : Decimal} {s r : List Char} {n : Number}
    (h : fraction negative x s = .ok (n, r)) : r.length ≤ s.length := by
  fun_cases fraction negative x s with
  | case1 => simp [fraction] at h
  | case2 c t hc y rest hy =>
    simp only [fraction, hc, hy, if_true] at h
    have := fractionPart_length_le x (c :: t)
    rw [hy] at this
    exact Nat.le_trans (exponentOrEnd_length_le h) this
  | case3 c t hc => simp [fraction, hc] at h

theorem integerReading_rest {negative : Bool} {x : Decimal} {s r : List Char} {n : Number}
    (h : integerReading negative x s = .ok (n, r)) : r = s := by
  simp only [integerReading] at h
  split at h
  · exact floatReading_rest h
  · split at h
    · simp_all
    · split at h
      · simp_all
      · exact floatReading_rest h

theorem afterInteger_length_le {negative : Bool} {x : Decimal} {s r : List Char} {n : Number}
    (h : afterInteger negative x s = .ok (n, r)) : r.length ≤ s.length := by
  cases s with
  | nil => simp [integerReading_rest h]
  | cons c t =>
    simp only [afterInteger] at h
    split at h
    · exact Nat.le_succ_of_le (fraction_length_le h)
    · split at h
      · exact Nat.le_succ_of_le (exponentPart_length_le h)
      · simp [integerReading_rest h]

theorem numeral_length_lt {negative : Bool} {s r : List Char} {n : Number}
    (h : numeral negative s = .ok (n, r)) : r.length < s.length := by
  cases s with
  | nil => simp [numeral] at h
  | cons c t =>
    refine Nat.lt_succ_of_le ?_
    simp only [numeral] at h
    split at h
    · split at h
      · split at h
        · simp at h
        · exact afterInteger_length_le h
      · exact afterInteger_length_le h
    · split at h
      · exact Nat.le_trans (afterInteger_length_le h) (integerPart_length_le _ t)
      · simp at h

end Salvage.Json
