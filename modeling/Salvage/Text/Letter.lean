/-! # Letters and words

Keywords are compared letter by letter without regard to case. `sameLetter` knows
the case pairs of ASCII; `foldsTo` also knows the two other characters whose simple
case folding is an ASCII letter, and is the comparison that patterns use.
-/

namespace Salvage.Text

/-- Equality up to ASCII case. -/
def sameLetter (a b : Char) : Bool := a.toLower == b.toLower

/-- The long s folds to the letter s. -/
def longS : Char := '\u017F'

/-- The Kelvin sign folds to the letter k. -/
def kelvinSign : Char := '\u212A'

/-- Equality up to simple case folding, for an ASCII letter `letter`. -/
def foldsTo (letter c : Char) : Bool :=
  sameLetter letter c || (c == longS && letter.toLower == 's')
    || (c == kelvinSign && letter.toLower == 'k')

/-- What follows `word` at the start of the text, each letter matched by `same`. -/
def dropWord? (same : Char → Char → Bool) : List Char → List Char → Option (List Char)
  | [], s => some s
  | w :: ws, c :: s => if same w c then dropWord? same ws s else none
  | _ :: _, [] => none

theorem dropWord?_length_add {same : Char → Char → Bool} {word s r : List Char}
    (h : dropWord? same word s = some r) : r.length + word.length = s.length := by
  fun_induction dropWord? same word s with
  | case1 s => simp_all
  | case2 w ws c s hc ih => simp [← ih h]; omega
  | case3 => simp at h
  | case4 => simp at h

/-- The text starts with `word` in any ASCII case. -/
def startsWithWord (s word : List Char) : Bool := (dropWord? sameLetter word s).isSome

/-- `word` occurs in the text in any ASCII case. -/
def containsWord (s word : List Char) : Bool :=
  startsWithWord s word || match s with
    | [] => false
    | _ :: r => containsWord r word

/-- The text equals `word` up to ASCII case. -/
def isWord (s word : List Char) : Bool := dropWord? sameLetter word s == some []

/-- Search for a word in a longer text. An empty word has no place of its own in a
text, and the search for it has no answer. -/
def contains? (s word : List Char) : Option Bool :=
  if word.isEmpty then none else some (containsWord s word)

end Salvage.Text
