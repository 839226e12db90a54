import Salvage.Ddl.Literal
import Salvage.Text.Alphabetic
import Salvage.Text.Line
import Salvage.Text.Numeric

/-! # Lexemes

A lexeme is read from its first character and the text behind it, and given in the form in
which it is written back. That form is the source text, except that escapes of strings are
resolved, a doubled quote is single, the mark of a string is a capital letter, and line
breaks and blanks are of one kind each.
-/

namespace Salvage.Ddl

open Text

/-- Puts text around the content of a lexeme. -/
def enclose (opening closing : List Char) (x : Option (List Char × List Char)) :
    Option (List Char × List Char) :=
  x.map fun (inner, rest) => (opening ++ inner ++ closing, rest)

theorem enclose_length_le {opening closing s t r : List Char}
    {x : Option (List Char × List Char)}
    (hx : ∀ {inner rest}, x = some (inner, rest) → rest.length ≤ s.length)
    (h : enclose opening closing x = some (t, r)) : r.length ≤ s.length := by
  obtain ⟨⟨inner, rest⟩, hi, heq⟩ := Option.map_eq_some_iff.1 h
  obtain ⟨-, rfl⟩ := Prod.mk.inj heq
  exact hx hi

/-- A character starts an unquoted word. -/
def isWordStart (c : Char) : Bool := isAlphabetic c || c == '_'

/-- A character continues an unquoted word. -/
def isWordPart (c : Char) : Bool :=
  isAlphabetic c || c.isDigit || c == '@' || c == '$' || c == '#' || c == '_'

/-- The run of characters with a property at the start of the text, behind the characters
that were read before it. -/
def run (before : List Char) (p : Char → Bool) (s : List Char) : List Char × List Char :=
  (before ++ s.takeWhile p, s.dropWhile p)

theorem run_length_le (before : List Char) (p : Char → Bool) (s : List Char) :
    (run before p s).2.length ≤ s.length := (List.dropWhile_sublist p).length_le

def word (before s : List Char) : List Char × List Char := run before isWordPart s

/-- A string without escapes from its opening quotes on: one quote, or two for the empty
string, or three, which then also end it. -/
def rawString (q : Char) (s : List Char) : Option (List Char × List Char) :=
  match s with
  | a :: b :: r =>
    if a = q ∧ b = q then enclose ['R', q, q, q] [q, q, q] (tripleContent q r)
    else if a = q then some (['R', q, q], b :: r)
    else enclose ['R', q] [q] (content q none (a :: b :: r))
  | [a] => if a = q then some (['R', q, q], []) else none
  | [] => none

theorem rawString_length_le {q : Char} {s t r : List Char} (h : rawString q s = some (t, r)) :
    r.length ≤ s.length := by
  unfold rawString at h
  split at h
  · split at h
    · have := enclose_length_le (fun hi => Nat.le_of_lt (tripleContent_length_lt hi)) h
      simp only [List.length_cons]; omega
    · split at h
      · simp_all
      · exact enclose_length_le (fun hi => Nat.le_of_lt (content_length_lt hi)) h
  · split at h <;> simp_all
  · simp at h

/-- A string that a letter introduces. The outer option says whether the letter does. -/
def markedString (c : Char) (s : List Char) : Option (Option (List Char × List Char)) :=
  match c.toUpper, s with
  | 'B', q :: r =>
    if q = '\'' ∨ q = '"' then some (enclose ['B', q] [q] (content q none r)) else none
  | 'R', q :: r => if q = '\'' ∨ q = '"' then some (rawString q r) else none
  | 'N', '\'' :: r => some (enclose ['N', '\''] ['\''] (content '\'' looseEscapes r))
  | 'X', '\'' :: r => some (enclose ['X', '\''] ['\''] (content '\'' looseEscapes r))
  | 'E', '\'' :: r => some (enclose ['E', '\''] ['\''] (content '\'' strictEscapes r))
  | 'U', '&' :: '\'' :: r =>
    some (enclose ['U', '&', '\''] ['\''] (content '\'' unicodeEscapes r))
  | _, _ => none

theorem markedString_length_le {c : Char} {s t r : List Char}
    (h : markedString c s = some (some (t, r))) : r.length ≤ s.length := by
  have hcontent {opening closing u : List Char} {q : Char} {e : Option Escapes}
      (hx : some (enclose opening closing (content q e u)) = some (some (t, r))) :
      r.length ≤ u.length :=
    enclose_length_le (fun hi => Nat.le_of_lt (content_length_lt hi)) (Option.some.inj hx)
  unfold markedString at h
  split at h
  · split at h
    · exact Nat.le_succ_of_le (hcontent h)
    · simp at h
  · split at h
    · exact Nat.le_succ_of_le (rawString_length_le (Option.some.inj h))
    · simp at h
  · exact Nat.le_succ_of_le (hcontent h)
  · exact Nat.le_succ_of_le (hcontent h)
  · exact Nat.le_succ_of_le (hcontent h)
  · exact Nat.le_succ_of_le (Nat.le_succ_of_le (hcontent h))
  · simp at h

/-- The sign of an exponent and what follows it. -/
def takeExponentSign : List Char → List Char × List Char
  | c :: r => if c = '+' ∨ c = '-' then ([c], r) else ([], c :: r)
  | [] => ([], [])

/-- An exponent at the start of the text. Its mark counts only before a digit. -/
def takeExponent : List Char → List Char × List Char
  | [] => ([], [])
  | c :: r =>
    let (sign, t) := takeExponentSign r
    if (c = 'e' ∨ c = 'E') ∧ (t.takeWhile Char.isDigit) ≠ [] then
      run (c :: sign) Char.isDigit t
    else ([], c :: r)

/-- A point at the start of the text. -/
def takePoint : List Char → List Char × List Char
  | '.' :: r => (['.'], r)
  | s => ([], s)

/-- The suffix of a long number. -/
def takeLongMark : List Char → List Char × List Char
  | 'L' :: r => (['L'], r)
  | s => ([], s)

/-- The end of a number behind its decimals. A lone point has none. -/
def numberEnd (decimals r : List Char) : List Char × List Char :=
  if decimals = ['.'] then (decimals, r)
  else
    let (exponent, r) := takeExponent r
    let (long, r) := takeLongMark r
    (decimals ++ exponent ++ long, r)

/-- A number behind its whole digits. Zero and the letter x introduce a number in
hexadecimal digits, which is written as a string. -/
def numberFrom (whole r : List Char) : List Char × List Char :=
  match decide (whole = ['0']), r with
  | true, 'x' :: t => (['X', '\''] ++ t.takeWhile isHexDigit ++ ['\''], t.dropWhile isHexDigit)
  | _, r =>
    let (point, r) := takePoint r
    let (decimals, r) := run (whole ++ point) Char.isDigit r
    numberEnd decimals r

/-- A number or a lone point. -/
def number (s : List Char) : List Char × List Char :=
  let (whole, r) := run [] Char.isDigit s
  numberFrom whole r

/-- The rest of a comment with `depth` comments open around it, and what follows it. -/
def blockComment (depth : Nat) : List Char → Option (List Char × List Char)
  | [] => none
  | [_] => none
  | c :: d :: r =>
    if c = '/' ∧ d = '*' then extend c (extend d (blockComment (depth + 1) r))
    else if c = '*' ∧ d = '/' then
      match depth with
      | 0 => some ([c, d], r)
      | depth + 1 => extend c (extend d (blockComment depth r))
    else extend c (blockComment depth (d :: r))

/-- A comment up to the end of its line, the line feed included. -/
def lineComment (s : List Char) : List Char × List Char :=
  let (comment, r) := run ['-', '-'] (· != '\n') s
  (comment ++ r.take 1, r.drop 1)

/-- The text up to and including the first occurrence of `mark`, and what follows it. -/
def throughMark (mark : List Char) : List Char → Option (List Char × List Char)
  | [] => none
  | c :: r =>
    match dropWord? (· == ·) mark (c :: r) with
    | some rest => some (mark, rest)
    | none => extend c (throughMark mark r)

def isTagPart (c : Char) : Bool := isAlphabetic c || isNumeric c || c == '_'

/-- A dollar sign with the name of a parameter, or text between two equal tags. -/
def dollar (s : List Char) : Option (List Char × List Char) :=
  let (tag, r) := run ['$'] isTagPart s
  match r with
  | '$' :: t => enclose (tag ++ ['$']) [] (throughMark (tag ++ ['$']) t)
  | _ => some (tag, r)

/-- The operators of several characters, each before its beginnings. -/
def operators : List (List Char) :=
  ["->>", "->", "//", "||/", "||", "|/", "=>", "==", "!=", "!!", "!~~*", "!~~", "!~*", "!~",
    "<=>", "<=", "<>", "<<", "<@", ">=", ">>", "::", ":=", "&&", "^@", "~~*", "~~", "~*",
    "#-", "#>>", "#>", "@>", "@?"].map String.toList

/-- How an operator is written back. -/
def operatorText (op : List Char) : List Char := if op = ['!', '='] then ['<', '>'] else op

/-- The operator at the start of the text, and what follows it. -/
def operator? (s : List Char) : Option (List Char × List Char) :=
  operators.findSome? fun op => (dropWord? (· == ·) op s).map (operatorText op, ·)

/-- A word that a number sign introduces. Any character but a space may follow the sign. -/
def hashWord : List Char → List Char × List Char
  | [] => (['#'], [])
  | c :: r => if c = ' ' then (['#'], c :: r) else word ['#', c] r

/-- A word that one or two at signs introduce. Any character may follow two signs but a
space, and one sign but a space or a quote. -/
def atWord : List Char → List Char × List Char
  | [] => (['@'], [])
  | '@' :: r =>
    match r with
    | [] => (['@', '@'], [])
    | c :: t => if c = ' ' then (['@', '@'], r) else word ['@', '@', c] t
  | c :: r =>
    if c = ' ' ∨ c = '\'' ∨ c = '"' ∨ c = '\x60' then (['@'], c :: r) else word ['@', c] r

/-- A lexeme that starts like an operator: a comment, an operator, a word with a sign, or a
character that stands for itself. -/
def symbol (c : Char) (r : List Char) : Option (List Char × List Char) :=
  match c, r with
  | '-', '-' :: t => some (lineComment t)
  | '/', '*' :: t => enclose ['/', '*'] [] (blockComment 0 t)
  | _, _ =>
    match operator? (c :: r) with
    | some lexeme => some lexeme
    | none =>
      if c = '#' then some (hashWord r)
      else if c = '@' then some (atWord r)
      else if c = '?' then some (run ['?'] isNumeric r)
      else if c = '$' then dollar r
      else if isBlank c ∧ c ≠ '\t' ∧ c ≠ '\n' then some ([' '], r)
      else some ([c], r)

/-- The lexeme that starts with the character `c`, and what follows it. -/
def lexeme (c : Char) (r : List Char) : Option (List Char × List Char) :=
  match markedString c r with
  | some string => string
  | none =>
    if isWordStart c then some (word [c] r)
    else if c = '\r' then some (['\n'], afterBreak c r)
    else if c = '\'' ∨ c = '"' ∨ c = '\x60' then enclose [c] [c] (content c none r)
    else if c.isDigit ∨ c = '.' then some (number (c :: r))
    else symbol c r

/-! A lexeme leaves no more text than stands behind its first character. -/

theorem takeExponent_length_le (s : List Char) : (takeExponent s).2.length ≤ s.length := by
  cases s with
  | nil => simp [takeExponent]
  | cons c r =>
    simp only [takeExponent]
    split
    · refine Nat.le_trans (run_length_le _ _ _) (Nat.le_succ_of_le ?_)
      cases r with
      | nil => simp [takeExponentSign]
      | cons d t => simp only [takeExponentSign]; split <;> simp
    · simp

theorem takePoint_length_le (s : List Char) : (takePoint s).2.length ≤ s.length := by
  unfold takePoint; split <;> simp

theorem takeLongMark_length_le (s : List Char) : (takeLongMark s).2.length ≤ s.length := by
  unfold takeLongMark; split <;> simp

theorem numberEnd_length_le (decimals s : List Char) :
    (numberEnd decimals s).2.length ≤ s.length := by
  simp only [numberEnd]
  split
  · simp
  · exact Nat.le_trans (takeLongMark_length_le _) (takeExponent_length_le s)

theorem numberFrom_length_le (whole s : List Char) :
    (numberFrom whole s).2.length ≤ (takePoint s).2.length := by
  unfold numberFrom
  split
  · have := run_length_le [] isHexDigit ‹_›
    simp only [run] at this
    simpa [takePoint] using Nat.le_succ_of_le this
  · exact Nat.le_trans (numberEnd_length_le _ _) (List.dropWhile_sublist _).length_le

theorem number_length_le {c : Char} (hc : c.isDigit ∨ c = '.') (s : List Char) :
    (number (c :: s)).2.length ≤ s.length := by
  refine Nat.le_trans (numberFrom_length_le _ _) ?_
  rcases hc with hc | rfl
  · refine Nat.le_trans (takePoint_length_le _) ?_
    simp only [List.dropWhile_cons_of_pos hc]
    exact (List.dropWhile_sublist _).length_le
  · simp [takePoint]

theorem blockComment_length_le {depth : Nat} {s t r : List Char}
    (h : blockComment depth s = some (t, r)) : r.length ≤ s.length := by
  fun_induction blockComment depth s generalizing t with
  | case1 => simp at h
  | case2 => simp at h
  | case3 _ c d u _ ih =>
    obtain ⟨_, hv, -⟩ := extend_eq_some_iff.1 h
    obtain ⟨_, hw, -⟩ := extend_eq_some_iff.1 hv
    exact Nat.le_succ_of_le (Nat.le_succ_of_le (ih hw))
  | case4 c d u =>
    obtain ⟨-, rfl⟩ := Prod.mk.inj (Option.some.inj h)
    simp only [List.length_cons]; omega
  | case5 c d u _ _ _ ih =>
    obtain ⟨_, hv, -⟩ := extend_eq_some_iff.1 h
    obtain ⟨_, hw, -⟩ := extend_eq_some_iff.1 hv
    exact Nat.le_succ_of_le (Nat.le_succ_of_le (ih hw))
  | case6 _ c d u _ _ ih =>
    obtain ⟨_, hv, -⟩ := extend_eq_some_iff.1 h
    exact Nat.le_succ_of_le (ih hv)

theorem lineComment_length_le (s : List Char) : (lineComment s).2.length ≤ s.length := by
  have := run_length_le ['-', '-'] (· != '\n') s
  simp only [lineComment, List.length_drop]; omega

theorem throughMark_length_le {mark s t r : List Char}
    (h : throughMark mark s = some (t, r)) : r.length ≤ s.length := by
  induction s generalizing t with
  | nil => simp [throughMark] at h
  | cons c u ih =>
    simp only [throughMark] at h
    split at h
    · rename_i v hv
      have := dropWord?_length_add hv
      obtain ⟨-, rfl⟩ := Prod.mk.inj (Option.some.inj h)
      omega
    · obtain ⟨_, hv, -⟩ := extend_eq_some_iff.1 h
      exact Nat.le_succ_of_le (ih hv)

theorem dollar_length_le {s t r : List Char} (h : dollar s = some (t, r)) :
    r.length ≤ s.length := by
  have hrun := run_length_le ['$'] isTagPart s
  simp only [dollar] at h
  split at h
  · rename_i u hu
    have := enclose_length_le (fun hi => throughMark_length_le hi) h
    simp only [hu, List.length_cons] at hrun
    omega
  · obtain ⟨-, rfl⟩ := Prod.mk.inj (Option.some.inj h)
    exact hrun

theorem operators_ne_nil : ∀ op ∈ operators, 0 < op.length := by decide

theorem operator?_length_lt {s t r : List Char} (h : operator? s = some (t, r)) :
    r.length < s.length := by
  obtain ⟨op, hop, h⟩ := List.exists_of_findSome?_eq_some h
  obtain ⟨u, hu, heq⟩ := Option.map_eq_some_iff.1 h
  obtain ⟨-, rfl⟩ := Prod.mk.inj heq
  have := dropWord?_length_add hu
  have := operators_ne_nil op hop
  omega

theorem hashWord_length_le (s : List Char) : (hashWord s).2.length ≤ s.length := by
  cases s with
  | nil => simp [hashWord]
  | cons c r =>
    simp only [hashWord]
    split
    · simp
    · exact Nat.le_succ_of_le (run_length_le _ _ r)

theorem atWord_length_le (s : List Char) : (atWord s).2.length ≤ s.length := by
  fun_cases atWord s with
  | case1 => simp
  | case2 => simp
  | case3 => simp
  | case4 => exact Nat.le_succ_of_le (Nat.le_succ_of_le (run_length_le _ _ _))
  | case5 => simp
  | case6 => exact Nat.le_succ_of_le (run_length_le _ _ _)

theorem rest_length_le {x : List Char × List Char} {t r : List Char} {n : Nat}
    (hx : x.2.length ≤ n) (h : some x = some (t, r)) : r.length ≤ n := by
  rw [Option.some.inj h] at hx
  exact hx

theorem symbol_length_le {c : Char} {s t r : List Char} (h : symbol c s = some (t, r)) :
    r.length ≤ s.length := by
  unfold symbol at h
  split at h
  · exact rest_length_le (Nat.le_succ_of_le (lineComment_length_le _)) h
  · exact Nat.le_succ_of_le (enclose_length_le (fun hi => blockComment_length_le hi) h)
  split at h
  · rename_i hop
    exact Nat.le_of_lt_succ (operator?_length_lt (hop.trans h))
  split at h
  · exact rest_length_le (hashWord_length_le s) h
  split at h
  · exact rest_length_le (atWord_length_le s) h
  split at h
  · exact rest_length_le (run_length_le _ _ s) h
  split at h
  · exact dollar_length_le h
  split at h <;> simp_all

theorem lexeme_length_le {c : Char} {s t r : List Char} (h : lexeme c s = some (t, r)) :
    r.length ≤ s.length := by
  unfold lexeme at h
  split at h
  · rename_i hm
    exact markedString_length_le (hm.trans (congrArg some h))
  split at h
  · exact rest_length_le (run_length_le _ _ s) h
  split at h
  · exact rest_length_le (afterBreak_length_le c s) h
  split at h
  · exact enclose_length_le (fun hi => Nat.le_of_lt (content_length_lt hi)) h
  split at h
  · exact rest_length_le (number_length_le ‹_› s) h
  · exact symbol_length_le h

end Salvage.Ddl
