import Salvage.Json.Basic
import Salvage.Number.Shortest

/-! # Writing JSON

The compact form has no space at all. The indented form puts each item and member on a
line of its own, two spaces deeper than the brackets around it. A double is written with
its shortest digits, positionally from `10 ^ -5` up to `10 ^ 16` and with an exponent
outside that range.
-/

namespace Salvage

/-- Where positional notation of a double begins and ends, as exponents of its first digit. -/
def positionalFrom : Int := -5

def positionalBelow : Int := 16

namespace Decimal

/-- The digits with a point, at least one of them behind it. -/
def positional (x : Decimal) : List Char :=
  let ds := Nat.toDigits 10 x.digits
  let places := (-x.exponent).toNat
  if 0 ≤ x.exponent then ds ++ List.replicate x.exponent.toNat '0' ++ ['.', '0']
  else if places < ds.length then
    ds.take (ds.length - places) ++ '.' :: ds.drop (ds.length - places)
  else '0' :: '.' :: List.replicate (places - ds.length) '0' ++ ds

/-- One digit before the point, and the exponent with its sign. -/
def scientific (x : Decimal) : List Char :=
  let e := x.leadingExponent
  let mantissa := match Nat.toDigits 10 x.digits with
    | [] => []
    | [d] => [d]
    | d :: ds => d :: '.' :: ds
  mantissa ++ 'e' :: (if e < 0 then '-' else '+') :: Nat.toDigits 10 e.natAbs

def write (x : Decimal) : List Char :=
  if positionalFrom ≤ x.leadingExponent ∧ x.leadingExponent < positionalBelow then x.positional
  else x.scientific

end Decimal

def Binary64.write (x : Binary64) : List Char :=
  let magnitude := if x.isZero then ['0', '.', '0'] else x.shortest.write
  if x.negative then '-' :: magnitude else magnitude

namespace Json

def Number.write : Number → List Char
  | .integer i => if i < 0 then '-' :: Nat.toDigits 10 i.natAbs else Nat.toDigits 10 i.natAbs
  | .float x => x.write

/-- The letter that follows the backslash in a short escape. -/
def shortEscape? (c : Char) : Option Char :=
  if c = '"' ∨ c = '\\' then some c
  else if c = '\x08' then some 'b'
  else if c = '\x0c' then some 'f'
  else if c = '\n' then some 'n'
  else if c = '\r' then some 'r'
  else if c = '\t' then some 't'
  else none

/-- A character as it stands between quotes. -/
def writeChar (c : Char) : List Char :=
  match shortEscape? c with
  | some letter => ['\\', letter]
  | none =>
    if c.toNat < 0x20 then
      ['\\', 'u', '0', '0', Nat.digitChar (c.toNat / 16), Nat.digitChar (c.toNat % 16)]
    else [c]

def writeString (s : String) : List Char := '"' :: s.toList.flatMap writeChar ++ ['"']

namespace Value

mutual

def write : Value → List Char
  | .null => ['n', 'u', 'l', 'l']
  | .bool true => ['t', 'r', 'u', 'e']
  | .bool false => ['f', 'a', 'l', 's', 'e']
  | .number n => n.write
  | .string s => writeString s
  | .array items => '[' :: [','].intercalate (writeItems items) ++ [']']
  | .object ms => '{' :: [','].intercalate (writeMembers ms) ++ ['}']

def writeItems : List Value → List (List Char)
  | [] => []
  | v :: vs => write v :: writeItems vs

def writeMembers : List (String × Value) → List (List Char)
  | [] => []
  | (k, v) :: ms => (writeString k ++ ':' :: write v) :: writeMembers ms

end

/-- Starts a line at the given depth. -/
def newLine (depth : Nat) : List Char := '\n' :: List.replicate (2 * depth) ' '

/-- Brackets around parts that each stand on a line of their own. -/
def block (opening closing : Char) (depth : Nat) (parts : List (List Char)) : List Char :=
  if parts.isEmpty then [opening, closing]
  else
    opening :: newLine (depth + 1) ++ (',' :: newLine (depth + 1)).intercalate parts
      ++ newLine depth ++ [closing]

mutual

/-- The indented form of a value that stands at the given depth. -/
def indented (depth : Nat) : Value → List Char
  | .array items => block '[' ']' depth (indentedItems (depth + 1) items)
  | .object ms => block '{' '}' depth (indentedMembers (depth + 1) ms)
  | .null => write .null
  | .bool b => write (.bool b)
  | .number n => write (.number n)
  | .string s => write (.string s)

def indentedItems (depth : Nat) : List Value → List (List Char)
  | [] => []
  | v :: vs => indented depth v :: indentedItems depth vs

def indentedMembers (depth : Nat) : List (String × Value) → List (List Char)
  | [] => []
  | (k, v) :: ms => (writeString k ++ ':' :: ' ' :: indented depth v) :: indentedMembers depth ms

end

/-- The compact text of a value. -/
def compact (v : Value) : String := String.ofList v.write

/-- The indented text of a value. -/
def pretty (v : Value) : String := String.ofList (v.indented 0)

end Value

end Json

end Salvage
