import Salvage.Json.StringLiteral
import Salvage.Number.Decimal
import Salvage.Text.Letter
import Salvage.Text.Pattern

/-! # Quoted lexemes

A string or a quoted identifier ends at its closing quote, and a doubled quote inside it
stands for one. Some strings also know escapes that a backslash begins. What is given is
the content with its escapes resolved and the text behind the closing quote. A literal
that is not closed, or that holds an escape without meaning, gives nothing.
-/

namespace Salvage.Ddl

open Text

/-- The escapes of a kind of string: the character that an escape stands for and what
follows it, from behind the backslash on. -/
structure Escapes where
  run : List Char → Option (Char × List Char)
  length_le : ∀ {s c r}, run s = some (c, r) → r.length ≤ s.length

/-- The content up to the closing quote. Without escapes a backslash is content. -/
def content (q : Char) (escapes : Option Escapes) (s : List Char) :
    Option (List Char × List Char) :=
  match s with
  | [] => none
  | c :: r =>
    if c = q then
      match r with
      | [] => some ([], [])
      | d :: t => if d = q then extend q (content q escapes t) else some ([], d :: t)
    else
      match if c = '\\' then escapes else none with
      | none => extend c (content q escapes r)
      | some e =>
        match _h : e.run r with
        | none => none
        | some (d, t) => extend d (content q escapes t)
termination_by s.length
decreasing_by
  · simp only [List.length_cons]; omega
  · simp
  · have := e.length_le _h
    simp only [List.length_cons]; omega

theorem content_length_lt {q : Char} {escapes : Option Escapes} {s inner rest : List Char}
    (h : content q escapes s = some (inner, rest)) : rest.length < s.length := by
  fun_induction content q escapes s generalizing inner with
  | case1 => simp at h
  | case2 => simp_all
  | case3 t ih =>
    obtain ⟨u, hu, -⟩ := extend_eq_some_iff.1 h
    have := ih hu
    simp only [List.length_cons]; omega
  | case4 => simp_all
  | case5 c r _ _ ih =>
    obtain ⟨u, hu, -⟩ := extend_eq_some_iff.1 h
    exact Nat.lt_succ_of_lt (ih hu)
  | case6 => simp at h
  | case7 c r _ e _ d t he ih =>
    obtain ⟨u, hu, -⟩ := extend_eq_some_iff.1 h
    have := e.length_le he
    have := ih hu
    simp only [List.length_cons]; omega

/-- The character that a backslash and a letter stand for where every character may be
escaped. -/
def looseEscape (letter : Char) : Char :=
  match letter with
  | '0' => '\x00'
  | 'a' => '\x07'
  | 'b' => '\x08'
  | 'f' => '\x0c'
  | 'n' => '\n'
  | 'r' => '\r'
  | 't' => '\t'
  | 'Z' => '\x1a'
  | c => c

/-- The escapes that never fail. -/
def looseEscapes : Escapes where
  run
    | [] => none
    | c :: r => some (looseEscape c, r)
  length_le {s _ _} h := by
    cases s <;> simp_all

/-- The character of a code point that is not a surrogate. -/
def scalar? (n : Nat) : Option Char := if n.isValidChar then some (Char.ofNat n) else none

/-- The code point that the next `size` characters denote. -/
def codePoint? (number? : List Char → Option Nat) (size : Nat) (s : List Char) :
    Option (Char × List Char) :=
  if s.length < size then none
  else ((number? (s.take size)).bind scalar?).map (·, s.drop size)

theorem drop_length_le {x : Option Char} {n : Nat} {s r : List Char} {c : Char}
    (h : x.map (·, s.drop n) = some (c, r)) : r.length ≤ s.length := by
  obtain ⟨_, -, heq⟩ := Option.map_eq_some_iff.1 h
  rw [← (Prod.mk.inj heq).2]
  simp

theorem codePoint?_length_le {number? : List Char → Option Nat} {size : Nat} {s r : List Char}
    {c : Char} (h : codePoint? number? size s = some (c, r)) : r.length ≤ s.length := by
  simp only [codePoint?] at h
  split at h
  · simp at h
  · exact drop_length_le h

/-- A number in hexadecimal digits, which a plus sign may precede. -/
def signedHex? : List Char → Option Nat
  | '+' :: d :: ds => Json.hexNumber? (d :: ds)
  | ds => Json.hexNumber? ds

/-- The character of the low byte of a number, which must be one of ASCII. -/
def lowByte? (n : Nat) : Option Char :=
  if n % 256 < 128 then some (Char.ofNat (n % 256)) else none

/-- The longest run of characters with the property `p` at the start, but at most `n`. -/
def takeUpTo (n : Nat) (p : Char → Bool) (s : List Char) : List Char := (s.take n).takeWhile p

def isHexDigit (c : Char) : Bool := (Json.hexValue? c).isSome

def isOctalDigit (c : Char) : Bool := '0' ≤ c && c ≤ '7'

/-- The number that octal digits denote. -/
def octalNumber (ds : List Char) : Nat := ds.foldl (fun n d => 8 * n + digitValue d) 0

/-- The byte of at most two hexadecimal digits, and without any digit the letter x. -/
def hexEscape (s : List Char) : Option (Char × List Char) :=
  match takeUpTo 2 isHexDigit s with
  | [] => some ('x', s)
  | d :: ds => ((Json.hexNumber? (d :: ds)).bind lowByte?).map (·, s.drop (d :: ds).length)

/-- The byte of at most three octal digits, the first of which is given. -/
def octalEscape (d : Char) (s : List Char) : Option (Char × List Char) :=
  let ds := takeUpTo 2 isOctalDigit s
  (lowByte? (octalNumber (d :: ds))).map (·, s.drop ds.length)

/-- The character that an escape with the given letter stands for. -/
def strictEscape (letter : Char) (s : List Char) : Option (Char × List Char) :=
  if letter = 'u' then codePoint? signedHex? 4 s
  else if letter = 'U' then codePoint? signedHex? 8 s
  else if letter = 'x' then hexEscape s
  else if isOctalDigit letter then octalEscape letter s
  else if letter = 'b' ∨ letter = 'f' ∨ letter = 'n' ∨ letter = 'r' ∨ letter = 't' then
    some (looseEscape letter, s)
  else some (letter, s)

theorem strictEscape_length_le {letter c : Char} {s r : List Char}
    (h : strictEscape letter s = some (c, r)) : r.length ≤ s.length := by
  unfold strictEscape at h
  split at h
  · exact codePoint?_length_le h
  split at h
  · exact codePoint?_length_le h
  split at h
  · unfold hexEscape at h
    split at h
    · simp_all
    · exact drop_length_le h
  split at h
  · exact drop_length_le h
  split at h <;> simp_all

/-- The escapes that fail where they denote no character other than NUL. -/
def strictEscapes : Escapes where
  run
    | [] => none
    | c :: r => (strictEscape c r).filter (·.1 ≠ '\x00')
  length_le {s _ _} h := by
    cases s with
    | nil => simp at h
    | cons c t => exact Nat.le_succ_of_le (strictEscape_length_le (Option.filter_eq_some_iff.1 h).1)

/-- The escapes that give a code point in four digits, or in six behind a plus sign. -/
def unicodeEscapes : Escapes where
  run
    | '\\' :: r => some ('\\', r)
    | '+' :: r => codePoint? Json.hexNumber? 6 r
    | s => codePoint? Json.hexNumber? 4 s
  length_le {s _ _} h := by
    split at h
    · simp_all
    · exact Nat.le_succ_of_le (codePoint?_length_le h)
    · exact codePoint?_length_le h

/-- The content up to the first three quotes in a row. -/
def tripleContent (q : Char) : List Char → Option (List Char × List Char)
  | [] => none
  | c :: r =>
    match dropWord? (· == ·) [q, q, q] (c :: r) with
    | some rest => some ([], rest)
    | none => extend c (tripleContent q r)

theorem tripleContent_length_lt {q : Char} {s inner rest : List Char}
    (h : tripleContent q s = some (inner, rest)) : rest.length < s.length := by
  induction s generalizing inner with
  | nil => simp [tripleContent] at h
  | cons c r ih =>
    simp only [tripleContent] at h
    split at h
    · rename_i t ht
      have := dropWord?_length_add ht
      obtain ⟨-, rfl⟩ := Prod.mk.inj (Option.some.inj h)
      simp only [List.length_cons, List.length_nil] at this ⊢; omega
    · obtain ⟨u, hu, -⟩ := extend_eq_some_iff.1 h
      exact Nat.lt_succ_of_lt (ih hu)

end Salvage.Ddl
