import Salvage.Text.Line

/-! # Encodings

Bytes are text in UTF-8 if they are valid in it. If not, a byte order mark of UTF-16 says
that they are in that encoding, and without a mark they are in the single-byte encoding
windows-1252, which gives every byte a meaning.
-/

namespace Salvage.Text

/-- The characters of the bytes 80 to 9F in windows-1252. -/
def windows1252Upper : List Nat :=
  [0x20AC, 0x81, 0x201A, 0x0192, 0x201E, 0x2026, 0x2020, 0x2021, 0x02C6, 0x2030, 0x0160, 0x2039,
   0x0152, 0x8D, 0x017D, 0x8F, 0x90, 0x2018, 0x2019, 0x201C, 0x201D, 0x2022, 0x2013, 0x2014,
   0x02DC, 0x2122, 0x0161, 0x203A, 0x0153, 0x9D, 0x017E, 0x0178]

/-- The character of a byte in windows-1252, which is that of Latin-1 except for the bytes
80 to 9F. -/
def windows1252Char (b : UInt8) : Char :=
  if 0x80 ≤ b.toNat ∧ b.toNat < 0xA0 then
    Char.ofNat (windows1252Upper.getD (b.toNat - 0x80) 0)
  else Char.ofNat b.toNat

def decodeWindows1252 (bytes : List UInt8) : List Char := bytes.map windows1252Char

/-- The order of the two bytes of a unit. -/
inductive ByteOrder where
  | little
  | big
deriving DecidableEq, Repr

/-- The 16-bit units of the bytes, if their number is even. -/
def units16? (order : ByteOrder) : List UInt8 → Option (List Nat)
  | [] => some []
  | [_] => none
  | a :: b :: r =>
    let unit := match order with
      | .little => a.toNat + 256 * b.toNat
      | .big => 256 * a.toNat + b.toNat
    (units16? order r).map (unit :: ·)

/-- The characters of 16-bit units, if every surrogate is one of a pair. -/
def decodeUnits : List Nat → Option (List Char)
  | [] => some []
  | u :: us =>
    if 0xD800 ≤ u ∧ u ≤ 0xDBFF then
      match us with
      | v :: vs =>
        if 0xDC00 ≤ v ∧ v ≤ 0xDFFF then
          (decodeUnits vs).map (Char.ofNat (0x10000 + 0x400 * (u - 0xD800) + (v - 0xDC00)) :: ·)
        else none
      | [] => none
    else if 0xDC00 ≤ u ∧ u ≤ 0xDFFF then none
    else (decodeUnits us).map (Char.ofNat u :: ·)

def decodeUtf16 (order : ByteOrder) (bytes : List UInt8) : Option (List Char) :=
  (units16? order bytes).bind decodeUnits

/-- The text of bytes that are not valid UTF-8. The byte order mark of UTF-8 promises what
they are not. -/
def decodeOther : List UInt8 → Option (List Char)
  | 0xEF :: 0xBB :: 0xBF :: _ => none
  | 0xFF :: 0xFE :: r => decodeUtf16 .little r
  | 0xFE :: 0xFF :: r => decodeUtf16 .big r
  | bytes => some (decodeWindows1252 bytes)

/-- The text of the bytes. A byte order mark stays in text that is valid UTF-8. -/
def decode (bytes : ByteArray) : Option String :=
  match String.fromUTF8? bytes with
  | some s => some s
  | none => (decodeOther bytes.toList).map String.ofList

end Salvage.Text
