import Salvage.Text.Pattern
import Salvage.Text.Letter

/-! # Fences

A fence is three backticks, followed at will by the name of a language. A fenced block
is the shortest non-empty text between two fences, without the blanks at its start as
far as it can do without them.
-/

namespace Salvage.Json

open Text

def fence : List Char := ['\x60', '\x60', '\x60']

/-- What follows a fence. -/
def afterFence? (s : List Char) : Option (List Char) := dropWord? (· == ·) fence s

/-- The languages that a fence may name, the preferred first. -/
def fenceTags : List (List Char) :=
  [['j', 's', 'o', 'n'], ['j', 'a', 'v', 'a', 's', 'c', 'r', 'i', 'p', 't'], ['j', 's']]

/-- The text behind each language named at its start, and last the text itself. -/
def tagSkips (s : List Char) : List (List Char) :=
  fenceTags.filterMap (dropWord? foldsTo · s) ++ [s]

theorem afterFence?_length_lt {s r : List Char} (h : afterFence? s = some r) :
    r.length < s.length := by
  have := dropWord?_length_add h
  simp only [fence, List.length_cons, List.length_nil] at this; omega

theorem length_le_of_mem_tagSkips {s t : List Char} (h : t ∈ tagSkips s) :
    t.length ≤ s.length := by
  rcases List.mem_append.1 h with h | h
  · obtain ⟨tag, -, ht⟩ := List.mem_filterMap.1 h
    have := dropWord?_length_add ht
    omega
  · simp_all

/-- A fence with the language it names. -/
def fenceMarker : Pattern Unit where
  run s := do
    let r ← afterFence? s
    let t ← (tagSkips r).head?
    return ((), t)
  shorter {s _ t} h := by
    obtain ⟨r, hr, h⟩ := Option.bind_eq_some_iff.1 h
    obtain ⟨u, hu, h⟩ := Option.bind_eq_some_iff.1 h
    obtain rfl : u = t := by simp_all
    exact Nat.lt_of_le_of_lt (length_le_of_mem_tagSkips (List.mem_of_head? hu))
      (afterFence?_length_lt hr)

/-- The inner text of a fenced block. -/
def fencedBlock : Pattern (List Char) where
  run s := do
    let r ← afterFence? s
    ((tagSkips r).flatMap blankSkips).findSome? (upTo afterFence?)
  shorter {s _ t} h := by
    obtain ⟨r, hr, h⟩ := Option.bind_eq_some_iff.1 h
    obtain ⟨u, hu, h⟩ := List.exists_of_findSome?_eq_some h
    obtain ⟨v, hv, hu⟩ := List.mem_flatMap.1 hu
    have := upTo_length_lt (fun h => Nat.le_of_lt (afterFence?_length_lt h)) h
    have := length_le_of_mem_blankSkips hu
    have := length_le_of_mem_tagSkips hv
    have := afterFence?_length_lt hr
    omega

def isOpening (c : Char) : Bool := c == '{' || c == '['

def isClosing (c : Char) : Bool := c == '}' || c == ']'

/-- The text from its first opening to its last closing bracket, if that comes later, and
otherwise the text itself. -/
def bracketed (s : List Char) : List Char :=
  let region := ((s.dropWhile (!isOpening ·)).reverse.dropWhile (!isClosing ·)).reverse
  if region.isEmpty then s else region

/-- The text without fences, cut down to its brackets. -/
def unfence (s : List Char) : List Char := bracketed (trim (fenceMarker.eraseAll s))

end Salvage.Json
