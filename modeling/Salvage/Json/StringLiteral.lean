import Salvage.Json.Failure

/-! # String literals

The characters between two double quotes. A backslash begins an escape; a character
outside the basic plane may be written as two escapes that form a surrogate pair.
-/

namespace Salvage.Json

def hexValue? (c : Char) : Option Nat :=
  if c.isDigit then some (c.toNat - '0'.toNat)
  else if 'a' ≤ c ∧ c ≤ 'f' then some (c.toNat - 'a'.toNat + 10)
  else if 'A' ≤ c ∧ c ≤ 'F' then some (c.toNat - 'A'.toNat + 10)
  else none

/-- The number that hexadecimal digits denote, if all of them are digits. -/
def hexNumber? (ds : List Char) : Option Nat :=
  ds.foldl (fun n d => return 16 * (← n) + (← hexValue? d)) (some 0)

/-- The number written in the next four bytes. -/
def fourHexDigits (s : List Char) : Except Failure (Nat × List Char) :=
  match if 4 ≤ s.length then hexNumber? (s.take 4) else none with
  | some n => .ok (n, s.drop 4)
  | none =>
    if byteCount s < 4 then .error (.before .endInString [])
    else .error ⟨.invalidEscape, byteCount s - 4⟩

def isLeadingSurrogate (n : Nat) : Bool := 0xD800 ≤ n && n ≤ 0xDBFF

def isTrailingSurrogate (n : Nat) : Bool := 0xDC00 ≤ n && n ≤ 0xDFFF

/-- The character that a surrogate pair encodes. -/
def surrogatePair (leading trailing : Nat) : Char :=
  Char.ofNat (0x10000 + 0x400 * (leading - 0xD800) + (trailing - 0xDC00))

/-- The character `expected`, which the second half of a pair must begin with. -/
def pairMark (expected : Char) : List Char → Except Failure (List Char)
  | [] => .error (.before .endInString [])
  | c :: r => if c = expected then .ok r else .error (.behindFirst .hexEscapeCut (c :: r))

/-- The second half of a surrogate pair. -/
def trailingHalf (leading : Nat) (s : List Char) : Except Failure (Char × List Char) := do
  let (n, r) ← fourHexDigits (← pairMark 'u' (← pairMark '\\' s))
  if isTrailingSurrogate n then return (surrogatePair leading n, r)
  else throw (.before .loneSurrogate r)

/-- The character of a numeric escape, from its first digit on. -/
def numericEscape (s : List Char) : Except Failure (Char × List Char) := do
  let (n, r) ← fourHexDigits s
  if isTrailingSurrogate n then throw (.before .loneSurrogate r)
  else if isLeadingSurrogate n then trailingHalf n r
  else return (Char.ofNat n, r)

/-- The character that a short escape stands for. -/
def unescape? (letter : Char) : Option Char :=
  if letter = '"' ∨ letter = '\\' ∨ letter = '/' then some letter
  else if letter = 'b' then some '\x08'
  else if letter = 'f' then some '\x0c'
  else if letter = 'n' then some '\n'
  else if letter = 'r' then some '\r'
  else if letter = 't' then some '\t'
  else none

/-- The character of an escape, from the letter behind the backslash on. -/
def escape : List Char → Except Failure (Char × List Char)
  | [] => .error (.before .endInString [])
  | c :: r =>
    if c = 'u' then numericEscape r
    else match unescape? c with
      | some d => .ok (d, r)
      | none => .error (.behindFirst .invalidEscape (c :: r))

theorem fourHexDigits_length_le {s r : List Char} {n : Nat} (h : fourHexDigits s = .ok (n, r)) :
    r.length ≤ s.length := by
  simp only [fourHexDigits] at h
  split at h
  · obtain ⟨-, rfl⟩ := Prod.mk.inj (Except.ok.inj h)
    simp
  · split at h <;> simp at h

theorem pairMark_length_le {c : Char} {s r : List Char} (h : pairMark c s = .ok r) :
    r.length ≤ s.length := by
  cases s with
  | nil => simp [pairMark] at h
  | cons d t =>
    simp only [pairMark] at h
    split at h <;> simp_all

theorem trailingHalf_length_le {leading : Nat} {s r : List Char} {c : Char}
    (h : trailingHalf leading s = .ok (c, r)) : r.length ≤ s.length := by
  simp only [trailingHalf, bind, Except.bind] at h
  split at h
  · simp at h
  · rename_i t ht
    split at h
    · simp at h
    · rename_i u hu
      split at h
      · simp at h
      · rename_i v hv
        split at h
        · obtain ⟨-, rfl⟩ := Prod.mk.inj (Except.ok.inj h)
          exact Nat.le_trans (fourHexDigits_length_le hv)
            (Nat.le_trans (pairMark_length_le hu) (pairMark_length_le ht))
        · simp [throw, throwThe, MonadExceptOf.throw] at h

theorem numericEscape_length_le {s r : List Char} {c : Char}
    (h : numericEscape s = .ok (c, r)) : r.length ≤ s.length := by
  simp only [numericEscape, bind, Except.bind] at h
  split at h
  · simp at h
  · rename_i v hv
    have hle := fourHexDigits_length_le hv
    split at h
    · simp [throw, throwThe, MonadExceptOf.throw] at h
    · split at h
      · exact Nat.le_trans (trailingHalf_length_le h) hle
      · obtain ⟨-, rfl⟩ := Prod.mk.inj (Except.ok.inj h)
        exact hle

theorem escape_length_lt {s r : List Char} {c : Char} (h : escape s = .ok (c, r)) :
    r.length < s.length := by
  cases s with
  | nil => simp [escape] at h
  | cons d t =>
    refine Nat.lt_succ_of_le ?_
    simp only [escape] at h
    split at h
    · exact numericEscape_length_le h
    · split at h <;> simp_all

/-- The content of a string, from behind the opening quote, and what follows the closing
quote. -/
def quoted (s : List Char) : Except Failure (List Char × List Char) :=
  match s with
  | [] => .error (.before .endInString [])
  | c :: r =>
    if c = '"' then .ok ([], r)
    else if c = '\\' then
      match _h : escape r with
      | .error e => .error e
      | .ok (d, t) => mapRead (d :: ·) (quoted t)
    else if c.toNat < 0x20 then .error (.behindFirst .controlCharacter (c :: r))
    else mapRead (c :: ·) (quoted r)
termination_by s.length
decreasing_by
  · have := escape_length_lt _h
    simp only [List.length_cons]; omega
  · simp

theorem quoted_length_lt {s r ds : List Char} (h : quoted s = .ok (ds, r)) :
    r.length < s.length := by
  fun_induction quoted s generalizing ds with
  | case1 => simp at h
  | case2 => simp_all
  | case3 => simp at h
  | case4 t d u he _ ih =>
    obtain ⟨es, hq, -⟩ := mapRead_eq_ok_iff.1 h
    have := escape_length_lt he
    have := ih hq
    simp only [List.length_cons]; omega
  | case5 => simp at h
  | case6 c t _ _ _ ih =>
    obtain ⟨es, hq, -⟩ := mapRead_eq_ok_iff.1 h
    exact Nat.lt_succ_of_lt (ih hq)

end Salvage.Json
