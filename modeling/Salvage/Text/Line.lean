/-! # Lines

A line ends at a carriage return, a line feed, or the pair of both in that order.
-/

namespace Salvage.Text

/-- The byte order mark, a character without meaning at the start of a text. -/
def byteOrderMark : Char := '\uFEFF'

def dropByteOrderMark : List Char → List Char
  | [] => []
  | c :: r => if c = byteOrderMark then r else c :: r

def isLineBreak (c : Char) : Bool := c == '\r' || c == '\n'

/-- What follows the line break `c`: a carriage return takes a line feed with it. -/
def afterBreak (c : Char) : List Char → List Char
  | [] => []
  | d :: r => if c = '\r' ∧ d = '\n' then r else d :: r

theorem afterBreak_length_le (c : Char) (s : List Char) : (afterBreak c s).length ≤ s.length := by
  cases s with
  | nil => simp [afterBreak]
  | cons d r => simp only [afterBreak]; split <;> simp

def firstLine (s : List Char) : List Char := s.takeWhile (!isLineBreak ·)

/-- What follows the first line and its line break. -/
def afterFirstLine (s : List Char) : List Char :=
  match s.dropWhile (!isLineBreak ·) with
  | [] => []
  | c :: r => afterBreak c r

/-- The lines that hold at least one character. -/
def nonemptyLines (s : List Char) : List (List Char) :=
  (s.splitOnP isLineBreak).filter (!·.isEmpty)

/-- Each line break character becomes a space. -/
def joinLines (s : List Char) : List Char :=
  s.map fun c => if isLineBreak c then ' ' else c

end Salvage.Text
