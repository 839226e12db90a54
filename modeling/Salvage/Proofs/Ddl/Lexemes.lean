import Salvage.Proofs.Ddl.Statements

/-! # Lexemes of written text

Words, numbers and blanks are read as lexemes up to the character that ends them. None of
them takes a comma or a parenthesis, even where it is written back in another form.
-/

namespace Salvage.Ddl

open Text

variable {n r s t : List Char} {c q : Char}

/-! ## Characters -/

/-- A character that makes a string of the letter in front of it. -/
def isMark (c : Char) : Bool := c == '"' || c == '\'' || c == '&'

theorem isMark_eq_false_iff : isMark c = false ↔ c ≠ '"' ∧ c ≠ '\'' ∧ c ≠ '&' := by
  simp [isMark, and_assoc]

/-- A character that bears on how a body is split. -/
def isSeparator (c : Char) : Bool := c == ',' || c == '(' || c == ')'

theorem isSeparator_iff : isSeparator c = true ↔ c = ',' ∨ c = '(' ∨ c = ')' := by
  simp [isSeparator, or_assoc]

theorem isSeparator_eq_of_isWordPart (h : isWordPart c = true) : isSeparator c = false := by
  cases hc : isSeparator c with
  | false => rfl
  | true => rcases isSeparator_iff.mp hc with rfl | rfl | rfl <;> revert h <;> decide

theorem isMark_eq_of_isWordPart (h : isWordPart c = true) : isMark c = false := by
  refine isMark_eq_false_iff.mpr ⟨?_, ?_, ?_⟩ <;> rintro rfl <;> revert h <;> decide

theorem isWordPart_of_isWordStart (h : isWordStart c = true) : isWordPart c = true := by
  simp only [isWordStart, Bool.or_eq_true] at h
  rcases h with h | h <;> simp [isWordPart, h]

theorem isWordStart_of_isAlpha (h : c.isAlpha = true) : isWordStart c = true := by
  simp [isWordStart, isAlphabetic, h]

theorem isWordPart_of_isAlpha (h : c.isAlpha = true) : isWordPart c = true :=
  isWordPart_of_isWordStart (isWordStart_of_isAlpha h)

theorem isWordPart_of_isTypeChar (h : isTypeChar c = true) : isWordPart c = true := by
  simp only [isTypeChar, Char.isAlphanum, Bool.or_eq_true] at h
  rcases h with (h | h) | h <;> simp [isWordPart, isAlphabetic, h]

theorem isWordPart_isMark_of_isSpacing (h : isSpacing c = true) :
    isWordPart c = false ∧ isMark c = false := by
  rcases isSpacing_iff.mp h with rfl | rfl | rfl <;> decide

theorem isMark_eq_of_isPlain (h : isPlain c = true) : isMark c = false := by
  refine isMark_eq_false_iff.mpr ⟨?_, ?_, ?_⟩ <;> rintro rfl <;> revert h <;> decide

/-! ## Words, blanks and quoted names -/

theorem markedString_eq_none (hr : ∀ d ∈ r.head?, isMark d = false) : markedString c r = none := by
  unfold markedString
  split
  all_goals first | rfl | skip
  all_goals
    have hmark := isMark_eq_false_iff.mp (hr _ rfl)
    simp_all

theorem lexeme_word (hc : isWordStart c = true) (hr : ∀ d ∈ r.head?, isMark d = false) :
    lexeme c r = some (word [c] r) := by
  simp only [lexeme, markedString_eq_none hr, hc, if_true]

theorem isWordStart_of_isDigit (hc : c.isDigit = true) : isWordStart c = false := by
  have hrange : 48 ≤ c.toNat ∧ c.toNat ≤ 57 := by
    simpa [Char.isDigit, UInt32.le_iff_toNat_le] using hc
  have hne : c ≠ '_' := by
    rintro rfl
    revert hc
    decide
  have hascii : ¬128 ≤ c.toNat := by omega
  simp [isWordStart, isAlphabetic, isAlpha_eq_of_isDigit hc, hne, hascii]

theorem lexeme_number (hc : c.isDigit = true) (hr : ∀ d ∈ r.head?, isMark d = false) :
    lexeme c r = some (number (c :: r)) := by
  have hne : c ≠ '\r' ∧ c ≠ '\'' ∧ c ≠ '"' ∧ c ≠ '\x60' := by
    refine ⟨?_, ?_, ?_, ?_⟩ <;> rintro rfl <;> revert hc <;> decide
  simp [lexeme, markedString_eq_none hr, isWordStart_of_isDigit hc, hne, hc]

theorem markedString_of_notMem (hc : c.toUpper ∉ ['B', 'R', 'N', 'X', 'E', 'U']) (r : List Char) :
    markedString c r = none := by
  unfold markedString
  split <;> simp_all

theorem operator?_eq_none (hc : operators.all (·.head? != some c) = true) (r : List Char) :
    operator? (c :: r) = none := by
  refine List.findSome?_eq_none_iff.mpr fun op hop => ?_
  have hfirst := List.all_eq_true.mp hc op hop
  obtain ⟨d, op, rfl⟩ := List.exists_cons_of_length_pos (operators_ne_nil op hop)
  have hne : (d == c) = false := by simpa using hfirst
  rw [dropWord?, hne]
  rfl

theorem symbol_blank (hc : isBlank c = true) (r : List Char) :
    symbol c r = some ([if c = '\t' ∨ c = '\n' then c else ' '], r) := by
  have hsigns : blankChars.all (· ∉ ['-', '/', '#', '@', '?', '$']) = true := by decide
  have hnone : blankChars.all (fun c => operators.all (·.head? != some c)) = true := by
    decide +kernel
  have hsign := of_isBlank hsigns hc
  have hoperator := operator?_eq_none
    (of_isBlank (p := fun c => operators.all (·.head? != some c)) hnone hc) r
  unfold symbol
  split
  · simp at hsign
  · simp at hsign
  · obtain ⟨-, -, h1, h2, h3, h4⟩ : c ≠ '-' ∧ c ≠ '/' ∧ c ≠ '#' ∧ c ≠ '@' ∧ c ≠ '?' ∧ c ≠ '$' := by
      simpa using hsign
    simp only [hoperator, h1, h2, h3, h4, hc, if_false, true_and, ← not_or]
    by_cases hkept : c = '\t' ∨ c = '\n' <;> simp [hkept]

theorem lexeme_blank (hc : isBlank c = true) (r : List Char) :
    lexeme c r = if c = '\r' then some (['\n'], afterBreak c r)
      else some ([if c = '\t' ∨ c = '\n' then c else ' '], r) := by
  have hstarts : blankChars.all (fun c => !isWordStart c && !c.isDigit) = true := by decide +kernel
  have hletters : blankChars.all
      (fun c => c.toUpper ∉ ['B', 'R', 'N', 'X', 'E', 'U']) = true := by decide
  have hsigns : blankChars.all (· ∉ ['\'', '"', '\x60', '.']) = true := by decide
  have hstart := of_isBlank (p := fun c => !isWordStart c && !c.isDigit) hstarts hc
  have hletter := of_isBlank
    (p := fun c => decide (c.toUpper ∉ ['B', 'R', 'N', 'X', 'E', 'U'])) hletters hc
  have hsign := of_isBlank hsigns hc
  rw [lexeme, markedString_of_notMem (by simpa using hletter), symbol_blank hc]
  simp at hstart hsign
  simp [hstart, hsign]

theorem lexeme_spacing (hc : isSpacing c = true) (r : List Char) : lexeme c r = some ([c], r) := by
  rw [lexeme_blank (isBlank_of_isSpacing hc)]
  rcases isSpacing_iff.mp hc with rfl | rfl | rfl <;> rfl

theorem content_append (hs : q ∉ s) (hr : ∀ d ∈ r.head?, d ≠ q) :
    content q none (s ++ q :: r) = some (s, r) := by
  induction s with
  | nil =>
    rw [List.nil_append, content.eq_def]
    cases r with
    | nil => simp
    | cons d r =>
      have hd : d ≠ q := hr d rfl
      simp [hd]
  | cons c s ih =>
    obtain ⟨hc, hs⟩ := List.ne_and_not_mem_of_not_mem_cons hs
    rw [List.cons_append, content.eq_def]
    simp [Ne.symm hc, ih hs, extend]

theorem lexeme_quoted (hq : isIdentifierQuote q = true) (hn : q ∉ n) (hr : ∀ d ∈ r.head?, d ≠ q) :
    lexeme q (n ++ q :: r) = some (q :: (n ++ [q]), r) := by
  have hor : q = '"' ∨ q = '\x60' := by simpa [isIdentifierQuote] using hq
  have hcontent := content_append hn hr
  rcases hor with rfl | rfl <;>
    simp [lexeme, markedString, isWordStart, isAlphabetic, hcontent, enclose]

/-! ## Numbers -/

theorem number_append {ds : List Char} (hds : IsNumber ds)
    (hr : ∀ c ∈ r.head?, c = ')' ∨ c = ',') : number (ds ++ r) = (ds, r) := by
  have hstop : ∀ c ∈ r.head?, c.isDigit = false := by
    intro c hc
    rcases hr c hc with rfl | rfl <;> decide
  have hwhole : run [] Char.isDigit (ds ++ r) = (ds, r) := by
    rw [run, takeWhile_append_of_head? hds.all hstop, dropWhile_append_of_head? hds.all hstop,
      List.nil_append]
  have hnone : run ds Char.isDigit r = (ds, r) := by
    rw [run, takeWhile_eq_nil_of_head? hstop, dropWhile_eq_self_of_head? hstop, List.append_nil]
  have hpoint : ds ≠ ['.'] := by
    rintro rfl
    exact absurd (hds.all '.' (by simp)) (by decide)
  have hend : numberEnd ds r = (ds, r) := by
    obtain _ | ⟨c, r⟩ := r
    · simp [numberEnd, hpoint, takeExponent, takeLongMark]
    · rcases hr c rfl with rfl | rfl <;> simp [numberEnd, hpoint, takeExponent, takeLongMark]
  rw [number, hwhole]
  obtain _ | ⟨c, r⟩ := r
  · simp [numberFrom, takePoint, hnone, hend]
  · rcases hr c rfl with rfl | rfl <;> simp [numberFrom, takePoint, hnone, hend]

/-! ## What a lexeme takes -/

/-- The second text is what is left of the first one behind text without separators. -/
def Leaves (s r : List Char) : Prop := ∃ w, s = w ++ r ∧ ∀ c ∈ w, isSeparator c = false

namespace Leaves

theorem refl (s : List Char) : Leaves s s := ⟨[], rfl, by simp⟩

theorem trans (h : Leaves s r) (h' : Leaves r t) : Leaves s t := by
  obtain ⟨w, rfl, hw⟩ := h
  obtain ⟨x, rfl, hx⟩ := h'
  refine ⟨w ++ x, (List.append_assoc w x t).symm, fun c hc => ?_⟩
  rcases List.mem_append.mp hc with hc | hc
  · exact hw c hc
  · exact hx c hc

theorem cons (hc : isSeparator c = false) (s : List Char) : Leaves (c :: s) s :=
  ⟨[c], rfl, by simpa using hc⟩

theorem dropWhile {p : Char → Bool} (hp : p ',' = false ∧ p '(' = false ∧ p ')' = false)
    (s : List Char) : Leaves s (s.dropWhile p) := by
  refine ⟨s.takeWhile p, List.takeWhile_append_dropWhile.symm, fun c hc => ?_⟩
  cases h : isSeparator c with
  | false => rfl
  | true =>
    have hpos := List.mem_takeWhile_imp hc
    rcases isSeparator_iff.mp h with rfl | rfl | rfl <;> simp [hp] at hpos

end Leaves

theorem leaves_takePoint (s : List Char) : Leaves s (takePoint s).2 := by
  unfold takePoint
  split
  · exact .cons (by decide) _
  · exact .refl _

theorem leaves_takeLongMark (s : List Char) : Leaves s (takeLongMark s).2 := by
  unfold takeLongMark
  split
  · exact .cons (by decide) _
  · exact .refl _

theorem leaves_takeExponentSign (s : List Char) : Leaves s (takeExponentSign s).2 := by
  unfold takeExponentSign
  split
  · split
    · rename_i hc
      exact .cons (by rcases hc with rfl | rfl <;> decide) _
    · exact .refl _
  · exact .refl _

theorem leaves_takeExponent (s : List Char) : Leaves s (takeExponent s).2 := by
  cases s with
  | nil => exact .refl _
  | cons c r =>
    simp only [takeExponent]
    split
    · rename_i h
      have hc : isSeparator c = false := by
        rcases h.1 with rfl | rfl <;> decide
      exact (Leaves.cons hc r).trans ((leaves_takeExponentSign r).trans
        (.dropWhile ⟨by decide, by decide, by decide⟩ _))
    · exact .refl _

theorem leaves_numberEnd (decimals s : List Char) : Leaves s (numberEnd decimals s).2 := by
  simp only [numberEnd]
  split
  · exact .refl s
  · exact (leaves_takeExponent s).trans (leaves_takeLongMark _)

theorem leaves_numberFrom (whole s : List Char) : Leaves s (numberFrom whole s).2 := by
  unfold numberFrom
  split
  · exact (Leaves.cons (by decide) _).trans (.dropWhile ⟨by decide, by decide, by decide⟩ _)
  · exact (leaves_takePoint _).trans
      ((Leaves.dropWhile ⟨by decide, by decide, by decide⟩ _).trans (leaves_numberEnd _ _))

theorem leaves_number (hc : c.isDigit = true) (s : List Char) :
    Leaves s (number (c :: s)).2 := by
  have hdrop : (c :: s).dropWhile Char.isDigit = s.dropWhile Char.isDigit := by
    rw [List.dropWhile_cons_of_pos hc]
  rw [number, run, hdrop]
  exact (Leaves.dropWhile ⟨by decide, by decide, by decide⟩ s).trans (leaves_numberFrom _ _)

theorem leaves_afterBreak (s : List Char) : Leaves s (afterBreak c s) := by
  cases s with
  | nil => exact .refl _
  | cons d s =>
    simp only [afterBreak]
    split
    · rename_i h
      exact .cons (by rw [h.2]; decide) s
    · exact .refl _

/-- No comma and no parenthesis is within a word, a number or a blank. -/
theorem exists_lexeme (hc : isPlain c = true) (hr : ∀ d ∈ r.head?, isMark d = false) :
    ∃ w s, lexeme c r = some (w, s) ∧ Leaves r s := by
  simp only [isPlain, Bool.or_eq_true] at hc
  rcases hc with (hc | hc) | hc
  · exact ⟨_, _, lexeme_word hc hr, .dropWhile ⟨by decide, by decide, by decide⟩ r⟩
  · exact ⟨_, _, lexeme_number hc hr, leaves_number hc r⟩
  · rw [lexeme_blank hc]
    split
    · exact ⟨_, _, rfl, leaves_afterBreak r⟩
    · exact ⟨_, _, rfl, .refl r⟩

end Salvage.Ddl
