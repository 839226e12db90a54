import Salvage.Form.Field
import Salvage.Number.Decimal
import Salvage.Text.Blank

/-! # Cells

The kind of a cell is guessed from its text: a finite number, one of the words true and
false, or any text. A number with no fraction and no exponent is an integer if 64 bits
hold it, and a double otherwise.
-/

namespace Salvage.Csv

open Form Json

def applySign (negative : Bool) (n : Nat) : Int := if negative then -n else n

/-- The integer that a sign and digits denote. -/
def integer? (s : List Char) : Option Int :=
  let (negative, ds) := takeSign s
  if ds ≠ [] ∧ ds.all Char.isDigit then some (applySign negative (ofDigits ds)) else none

/-- The digits behind a point, and what follows them. -/
def takeFraction : List Char → List Char × List Char
  | '.' :: r => (r.takeWhile Char.isDigit, r.dropWhile Char.isDigit)
  | s => ([], s)

/-- The exponent that ends a number. -/
def exponent? : List Char → Option Int
  | [] => some 0
  | c :: r => if c = 'e' ∨ c = 'E' then integer? r else none

/-- The sign and the magnitude of a decimal number. There is a digit before or behind the
point. -/
def decimal? (s : List Char) : Option (Bool × Decimal) :=
  let (negative, t) := takeSign s
  let whole := t.takeWhile Char.isDigit
  let (fraction, rest) := takeFraction (t.dropWhile Char.isDigit)
  if whole ++ fraction = [] then none
  else (exponent? rest).map fun e => (negative, ⟨ofDigits (whole ++ fraction), e - fraction.length⟩)

/-- The integer can be held by 64 bits. -/
def fits64 (i : Int) : Bool := -(Nat.pow 2 63 : Nat) ≤ i && i < (Nat.pow 2 63 : Nat)

/-- The number that the text between blanks denotes, if it is finite. -/
def number? (cell : List Char) : Option Json.Number :=
  let s := Text.trim cell
  match (integer? s).filter fits64 with
  | some i => some (.integer i)
  | none => (decimal? s).bind fun (negative, x) => (x.toBinary64? negative).map .float

def isTrue (cell : List Char) : Bool := Text.isWord cell "true".toList

def isFalse (cell : List Char) : Bool := Text.isWord cell "false".toList

/-- The kind of a column with this cell. -/
def inferKind (cell : String) : FieldKind :=
  if (number? cell.toList).isSome then .numeric
  else if isTrue cell.toList || isFalse cell.toList then .boolean
  else .text

/-- The value of a cell in a column of the given kind. A cell that is no number is null
where numbers are expected. -/
def coerce (kind : FieldKind) (cell : String) : Value :=
  match kind with
  | .numeric => ((number? cell.toList).map Value.number).getD .null
  | .boolean => .bool (isTrue cell.toList)
  | _ => .string cell

end Salvage.Csv
