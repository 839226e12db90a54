import Salvage.Text.Letter
import Salvage.Text.Line

/-! # The delimiter of a table

A first line of the form `sep=X` names the delimiter. Otherwise the candidates are scored
on the first lines that are not empty: a candidate that splits most lines into several
fields is far ahead of one that does not, and then the one whose field counts stray least
from their mode wins. Of equal scores the earlier candidate wins.
-/

namespace Salvage.Csv

open Text

/-- The delimiters that are tried, the preferred first. -/
def delimiters : List Char := [',', ';', '\t', '|']

/-- The number of lines that are scored. -/
def sampleSize : Nat := 50

/-- What a candidate gains when it splits most lines, and loses when it does not. -/
def splitBonus : Int := 1000

/-- The delimiter that a line names, with nothing but spaces around the naming. -/
def separatorHint? (line : List Char) : Option Char :=
  match dropWord? sameLetter ['s', 'e', 'p', '='] (line.dropWhile (· == ' ')) with
  | some (hint :: rest) => if rest.all fun c => c == ' ' || c == '\r' then some hint else none
  | _ => none

/-- How often the delimiter stands outside quotes, from a place on that is inside them or
not. A doubled quote inside quotes leaves them and enters them again. -/
def delimiterCount (d : Char) (quoted : Bool) : List Char → Nat
  | [] => 0
  | c :: r =>
    if c = '"' then delimiterCount d (!quoted) r
    else if c = d ∧ !quoted then delimiterCount d quoted r + 1
    else delimiterCount d quoted r

/-- The number of fields of a line. -/
def fieldCount (d : Char) (line : List Char) : Nat := delimiterCount d false line + 1

/-- The element in the middle of the sorted list, of two the upper one. -/
def upperMedian (ns : List Nat) : Nat := (ns.mergeSort[ns.length / 2]?).getD 1

/-- The distance of two numbers. -/
def distance (a b : Nat) : Nat := (a - b) + (b - a)

/-- Whether `a` is nearer to `m` than `b` is, or as near and smaller. -/
def nearer (m a b : Nat) : Bool :=
  distance a m < distance b m || (distance a m == distance b m && a < b)

/-- The first of the numbers that none of the others is nearer to `m` than. -/
def nearest (m : Nat) : List Nat → Option Nat
  | [] => none
  | n :: ns => some (ns.foldl (fun best k => if nearer m k best then k else best) n)

/-- The elements that no element is more frequent than. -/
def mostFrequent (ns : List Nat) : List Nat :=
  ns.filter fun n => ns.all fun k => ns.count k ≤ ns.count n

/-- The most frequent number, of several the one nearest to the upper median. -/
def mode (ns : List Nat) : Nat := (nearest (upperMedian ns) (mostFrequent ns)).getD 1

/-- The first lines that are not empty. -/
def sample (s : List Char) : List (List Char) := (nonemptyLines s).take sampleSize

/-- How far the numbers lie from their mode in total. -/
def spread (ns : List Nat) : Nat := (ns.map (distance · (mode ns))).foldr (· + ·) 0

/-- The score of a list of field counts. -/
def countsScore (ns : List Nat) : Int :=
  (if 1 < mode ns then splitBonus else -splitBonus) - spread ns

def score (lines : List (List Char)) (d : Char) : Int := countsScore (lines.map (fieldCount d))

/-- The delimiter `e` if it scores higher than `d`, and otherwise `d`. -/
def better (lines : List (List Char)) (d e : Char) : Char :=
  if score lines d < score lines e then e else d

/-- The first delimiter with the highest score. -/
def bestDelimiter (lines : List (List Char)) : List Char → Option Char
  | [] => none
  | d :: ds => some (ds.foldl (better lines) d)

def fallbackDelimiter : Char := ','

/-- The delimiter that the lines themselves suggest. -/
def suggestedDelimiter (s : List Char) : Char :=
  let lines := sample s
  if lines.isEmpty then fallbackDelimiter
  else (bestDelimiter lines delimiters).getD fallbackDelimiter

/-- The delimiter that the first line names, or else the one that the lines suggest. -/
def delimiterOf (s : List Char) : Char :=
  (separatorHint? (firstLine s)).getD (suggestedDelimiter s)

end Salvage.Csv
