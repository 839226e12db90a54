import Salvage.Csv.Delimiter

/-! # Tables

A table is read as records of fields. A quote opens a quoted part only at the very start
of a field; inside it two quotes stand for one, and delimiters and line breaks are
content. A quoted part that is not closed runs to the end of the text. Fields are never
trimmed, and a record without any character is not a row.
-/

namespace Salvage.Csv

open Text

abbrev Row := List String

structure Field where
  text : List Char
  quoted : Bool
deriving DecidableEq, Repr

abbrev Record := List Field

/-- The content of a quoted part, from behind its opening quote, and what follows it. -/
def quotedPart : List Char → List Char × List Char
  | [] => ([], [])
  | c :: r =>
    if c = '"' then
      match r with
      | '"' :: t => ('"' :: (quotedPart t).1, (quotedPart t).2)
      | _ => ([], r)
    else (c :: (quotedPart r).1, (quotedPart r).2)

/-- The character neither ends a field nor a record. -/
def isContent (d c : Char) : Bool := !(c == d || isLineBreak c)

/-- The first field, and what follows it. -/
def field (d : Char) : List Char → Field × List Char
  | [] => (⟨[], false⟩, [])
  | c :: r =>
    if c = '"' then
      let (inner, t) := quotedPart r
      (⟨inner ++ t.takeWhile (isContent d), true⟩, t.dropWhile (isContent d))
    else (⟨(c :: r).takeWhile (isContent d), false⟩, (c :: r).dropWhile (isContent d))

theorem quotedPart_length_le (s : List Char) : (quotedPart s).2.length ≤ s.length := by
  fun_induction quotedPart s with
  | case1 => simp
  | case2 => simp only [List.length_cons]; omega
  | case3 => simp
  | case4 => simp only [List.length_cons]; omega

theorem field_length_le (d : Char) (s : List Char) : (field d s).2.length ≤ s.length := by
  have hdrop (t : List Char) : (t.dropWhile (isContent d)).length ≤ t.length :=
    (List.dropWhile_sublist _).length_le
  cases s with
  | nil => simp [field]
  | cons c r =>
    simp only [field]
    split
    · exact Nat.le_trans (hdrop _) (Nat.le_succ_of_le (quotedPart_length_le r))
    · exact hdrop _

/-- Puts a field in front of the first record. -/
def consField (f : Field) : List Record → List Record
  | [] => [[f]]
  | r :: rs => (f :: r) :: rs

/-- The records of a text. A delimiter is followed by a field, and a line break by a record,
be it empty. -/
def records (d : Char) (s : List Char) : List Record :=
  match _h : field d s with
  | (f, []) => [[f]]
  | (f, c :: r) =>
    if c = d then consField f (records d r) else [f] :: records d (afterBreak c r)
termination_by s.length
decreasing_by
  · have := field_length_le d s
    simp only [_h, List.length_cons] at this; omega
  · have := field_length_le d s
    have := afterBreak_length_le c r
    simp only [_h, List.length_cons] at *; omega

/-- A record of one field that has no character, not even quotes. -/
def isBlankRecord (r : Record) : Bool := r == [⟨[], false⟩]

/-- The rows of a text with a known delimiter. -/
def rows (d : Char) (s : List Char) : List Row :=
  ((records d s).filter (!isBlankRecord ·)).map fun r => r.map fun f => String.ofList f.text

/-- The delimiter that the first line names, and the text behind that line. -/
def takeHint (s : List Char) : Option Char × List Char :=
  match separatorHint? (firstLine s) with
  | some d => (some d, afterFirstLine s)
  | none => (none, s)

/-- The rows of a text. A given delimiter has precedence over a named one, and that over a
suggested one; a line that names a delimiter is never a row. -/
def table (delimiter : Option Char) (text : List Char) : List Row :=
  let (hint, body) := takeHint (dropByteOrderMark text)
  rows ((delimiter <|> hint).getD (delimiterOf body)) body

end Salvage.Csv
