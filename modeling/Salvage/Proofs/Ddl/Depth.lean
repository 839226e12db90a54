import Salvage.Proofs.Ddl.Lexemes

/-! # The split by depth

The tokens of a written body are those of its definitions one after another. A definition
has commas inside parentheses only, so the split by depth leaves it in one piece. The piece
of a column is its text, and the piece of a clause begins with the same words as its text.
-/

namespace Salvage.Ddl

open Text

variable {a b g h k n p r s t u v w x y : List Char} {c : Char} {cs : List Column} {d : ℕ}
  {ok : List Char → Prop} {ts us : List Token}

/-! ## Tokens -/

namespace Token

/-- The text of tokens as it is written back. -/
def textOf (ts : List Token) : List Char := ts.flatMap text

@[simp] theorem textOf_nil : textOf [] = [] := rfl

@[simp] theorem textOf_cons (t : Token) (ts : List Token) :
    textOf (t :: ts) = t.text ++ textOf ts := rfl

@[simp] theorem textOf_append (ts us : List Token) : textOf (ts ++ us) = textOf ts ++ textOf us :=
  List.flatMap_append

/-- The tokens at the start of the first text leave the second one. -/
inductive Reads : List Char → List Token → List Char → Prop where
  | refl (s : List Char) : Reads s [] s
  | cons {c : Char} {r s u : List Char} {t : Token} {ts : List Token}
      (h : read c r = some (t, s)) (hs : Reads s ts u) : Reads (c :: r) (t :: ts) u

namespace Reads

theorem trans (h : Reads s ts r) (h' : Reads r us t) : Reads s (ts ++ us) t := by
  induction h with
  | refl => exact h'
  | cons h _ ih => exact .cons h (ih h')

theorem ofText_eq (h : Reads s ts []) : ofText s = some ts := by
  generalize hr : ([] : List Char) = r at h
  induction h with
  | refl =>
    subst hr
    simp [ofText]
  | cons h _ ih =>
    rw [ofText]
    split
    · simp_all
    · simp_all

end Reads

theorem read_comma (r : List Char) : read ',' r = some (.comma, r) := rfl

theorem read_opening (r : List Char) : read '(' r = some (.leftParen, r) := rfl

theorem read_closing (r : List Char) : read ')' r = some (.rightParen, r) := rfl

theorem read_of_lexeme (hc : isSeparator c = false) (h : lexeme c r = some (w, s)) :
    read c r = some (.other w, s) := by
  have hne : c ≠ ',' ∧ c ≠ '(' ∧ c ≠ ')' := by simpa [isSeparator, and_assoc] using hc
  simp [read, hne, h]

theorem read_word (hc : isWordStart c = true) (hr : ∀ d ∈ r.head?, isMark d = false) :
    read c r = some (.other (c :: r.takeWhile isWordPart), r.dropWhile isWordPart) :=
  read_of_lexeme (isSeparator_eq_of_isWordPart (isWordPart_of_isWordStart hc)) (lexeme_word hc hr)

theorem read_spacing (hc : isSpacing c = true) (r : List Char) :
    read c r = some (.other [c], r) := by
  have hsep : isSeparator c = false := by
    rcases isSpacing_iff.mp hc with rfl | rfl | rfl <;> decide
  exact read_of_lexeme hsep (lexeme_spacing hc r)

/-- The tokens have commas inside parentheses only, where `depth` of them are open around
the tokens, and close each one that is open. -/
inductive Nested : ℕ → List Token → Prop where
  | nil : Nested 0 []
  | other {depth : ℕ} {w : List Char} {ts : List Token} (h : Nested depth ts) :
      Nested depth (.other w :: ts)
  | opening {depth : ℕ} {ts : List Token} (h : Nested (depth + 1) ts) :
      Nested depth (.leftParen :: ts)
  | closing {depth : ℕ} {ts : List Token} (h : Nested depth ts) :
      Nested (depth + 1) (.rightParen :: ts)
  | comma {depth : ℕ} {ts : List Token} (h : Nested (depth + 1) ts) :
      Nested (depth + 1) (.comma :: ts)

theorem Nested.append {e : ℕ} (h : Nested d ts) (h' : Nested e us) : Nested (e + d) (ts ++ us) := by
  induction h with
  | nil => exact h'
  | other _ ih => exact .other ih
  | opening _ ih => exact .opening ih
  | closing _ ih => exact .closing ih
  | comma _ ih => exact .comma ih

end Token

open Token

theorem prepend_prepend (s t : List Char) (ss : List (List Char)) :
    prepend s (prepend t ss) = prepend (s ++ t) ss := by
  cases ss with
  | nil => rfl
  | cons u ss => simp [prepend]

theorem splitTokens_ne_nil (d : ℕ) (ts : List Token) : splitTokens d ts ≠ [] := by
  cases ts with
  | nil => simp [splitTokens]
  | cons t ts =>
    rw [splitTokens]
    split
    · simp
    · cases splitTokens (t.depthAfter d) ts <;> simp [prepend]

/-- Tokens without a comma outside parentheses stay together. -/
theorem Token.Nested.splitTokens_append (h : Nested d ts) (us : List Token) :
    splitTokens d (ts ++ us) = prepend (textOf ts) (splitTokens 0 us) := by
  induction h with
  | nil =>
    obtain ⟨s, ss, hs⟩ := List.exists_cons_of_ne_nil (splitTokens_ne_nil 0 us)
    simp [hs, prepend]
  | other _ ih | opening _ ih | closing _ ih | comma _ ih =>
    rw [List.cons_append, splitTokens, if_neg (by simp)]
    simp [depthAfter, ih, prepend_prepend]

/-! ## Text that is given back -/

/-- In front of the text `r`, the tokens of `w` give `w` back and have no comma outside
parentheses. -/
def GivesBack (w r : List Char) : Prop :=
  ∃ ts, Reads (w ++ r) ts r ∧ textOf ts = w ∧ Nested 0 ts

/-- The text begins with a character that ends a word and marks no string. -/
def EndsWord (r : List Char) : Prop := ∀ c ∈ r.head?, isWordPart c = false ∧ isMark c = false

theorem endsWord_cons (h : isWordPart c = false ∧ isMark c = false) (r : List Char) :
    EndsWord (c :: r) := by
  rintro d ⟨⟩
  exact h

namespace GivesBack

theorem nil (r : List Char) : GivesBack [] r := ⟨[], .refl r, rfl, .nil⟩

theorem append (h : GivesBack w (x ++ r)) (h' : GivesBack x r) : GivesBack (w ++ x) r := by
  obtain ⟨ts, hts, rfl, hnested⟩ := h
  obtain ⟨us, hus, rfl, hnested'⟩ := h'
  exact ⟨ts ++ us, by simpa using hts.trans hus, textOf_append ts us, hnested.append hnested'⟩

theorem of_read (h : Token.read c (w ++ r) = some (.other (c :: w), r)) : GivesBack (c :: w) r :=
  ⟨[.other (c :: w)], .cons h (.refl r), by simp [text], .other .nil⟩

end GivesBack

theorem givesBack_word (hc : isWordStart c = true) (hw : ∀ d ∈ w, isWordPart d = true)
    (hr : EndsWord r) : GivesBack (c :: w) r := by
  have hstop : ∀ d ∈ r.head?, isWordPart d = false := fun d hd => (hr d hd).1
  have hmark : ∀ d ∈ (w ++ r).head?, isMark d = false := by
    cases w with
    | nil => exact fun d hd => (hr d hd).2
    | cons e w =>
      rintro d ⟨⟩
      exact isMark_eq_of_isWordPart (hw e List.mem_cons_self)
  refine .of_read ?_
  rw [read_word hc hmark, takeWhile_append_of_head? hw hstop, dropWhile_append_of_head? hw hstop]

theorem givesBack_identifier (hn : IsIdentifier n) (hr : EndsWord r) : GivesBack n r := by
  obtain ⟨c, w, rfl, hstart⟩ := hn.exists_cons
  have hc : isWordStart c = true := by
    rcases hstart with h | rfl
    · exact isWordStart_of_isAlpha h
    · decide
  exact givesBack_word hc
    (fun d hd => isWordPart_of_isTypeChar (hn.all d (List.mem_cons_of_mem c hd))) hr

theorem givesBack_spacing (hg : Spacing g) (r : List Char) : GivesBack g r := by
  induction g with
  | nil => exact .nil r
  | cons c g ih =>
    have hfirst : GivesBack [c] (g ++ r) := .of_read (read_spacing (hg c List.mem_cons_self) _)
    exact hfirst.append (ih fun d hd => hg d (List.mem_cons_of_mem c hd))

theorem givesBack_wrapped (hn : IsIdentifier n) (hw : IsWrapped n w)
    (hr : ∀ c ∈ r.head?, isSpacing c = true) : GivesBack w r := by
  cases hw with
  | bare => exact givesBack_identifier hn fun c hc => isWordPart_isMark_of_isSpacing (hr c hc)
  | @quoted q hq =>
    have hor : q = '"' ∨ q = '\x60' := by simpa [isIdentifierQuote] using hq
    have hne : isTypeChar q = false ∧ isSeparator q = false ∧ isSpacing q = false := by
      rcases hor with rfl | rfl <;> decide
    have hmem : q ∉ n := fun h => by simp [hn.all q h] at hne
    have hend : ∀ d ∈ r.head?, d ≠ q := by
      rintro d hd rfl
      simp [hr d hd] at hne
    refine .of_read (read_of_lexeme hne.2.1 ?_)
    simpa using lexeme_quoted hq hmem hend

theorem endsWord_append (ht : ∀ c ∈ t.head?, isSpacing c = true) (hr : EndsWord r) :
    EndsWord (t ++ r) := by
  cases t with
  | nil => exact hr
  | cons c t => exact endsWord_cons (isWordPart_isMark_of_isSpacing (ht c rfl)) _

theorem givesBack_letters (ht : ∀ c ∈ t, c.isAlpha = true ∨ isSpacing c = true) (hr : EndsWord r) :
    GivesBack t r := by
  induction hlength : t.length using Nat.strong_induction_on generalizing t with
  | h k ih =>
    subst hlength
    cases t with
    | nil => exact .nil r
    | cons c t =>
      have htail : ∀ d ∈ t, d.isAlpha = true ∨ isSpacing d = true :=
        fun d hd => ht d (List.mem_cons_of_mem c hd)
      rcases ht c List.mem_cons_self with hc | hc
      · -- The word goes up to the next blank.
        have hdrop : ∀ d ∈ t.dropWhile isWordPart, d.isAlpha = true ∨ isSpacing d = true :=
          fun d hd => htail d ((List.dropWhile_sublist _).subset hd)
        have hstop : ∀ d ∈ (t.dropWhile isWordPart).head?, isSpacing d = true := by
          intro d hd
          have hnot := head?_dropWhile t d hd
          refine (hdrop d (List.mem_of_mem_head? hd)).resolve_left fun halpha => ?_
          simp [isWordPart_of_isAlpha halpha] at hnot
        have hword : GivesBack (c :: t.takeWhile isWordPart) (t.dropWhile isWordPart ++ r) :=
          givesBack_word (isWordStart_of_isAlpha hc) (fun d => List.mem_takeWhile_imp)
            (endsWord_append hstop hr)
        have hrest : GivesBack (t.dropWhile isWordPart) r :=
          ih _ (Nat.lt_succ_of_le (List.dropWhile_sublist _).length_le) hdrop rfl
        simpa using hword.append hrest
      · have hfirst : GivesBack [c] (t ++ r) := givesBack_spacing (by simpa [Spacing] using hc) _
        exact hfirst.append (ih t.length (by simp) htail rfl)

theorem givesBack_number {ds : List Char} (hds : IsNumber ds)
    (hr : ∀ c ∈ r.head?, c = ')' ∨ c = ',') : GivesBack ds r := by
  obtain ⟨c, w, rfl⟩ := List.exists_cons_of_ne_nil hds.ne_nil
  have hc : c.isDigit = true := hds.all c List.mem_cons_self
  have hmark : ∀ d ∈ (w ++ r).head?, isMark d = false := by
    cases w with
    | nil =>
      intro d hd
      rcases hr d hd with rfl | rfl <;> decide
    | cons e w =>
      rintro d ⟨⟩
      have hd : isTypeChar e = true := isTypeChar_of_isDigit (hds.all e (by simp))
      exact isMark_eq_of_isWordPart (isWordPart_of_isTypeChar hd)
  have hsep : isSeparator c = false :=
    isSeparator_eq_of_isWordPart (isWordPart_of_isTypeChar (isTypeChar_of_isDigit hc))
  refine .of_read (read_of_lexeme hsep ?_)
  rw [lexeme_number hc hmark, ← List.cons_append, number_append hds hr]

theorem givesBack_suffix {mode : SplitMode} (hx : IsSuffix mode x) (r : List Char) :
    GivesBack x r := by
  cases hx with
  | none => exact .nil r
  | precision hds =>
    obtain ⟨ts, hts, rfl, hnested⟩ := givesBack_number hds (r := ')' :: r) (by simp)
    have hclosed := hts.trans (.cons (read_closing r) (.refl r))
    exact ⟨.leftParen :: (ts ++ [.rightParen]), .cons (read_opening _) (by simpa using hclosed),
      by simp [text], .opening (hnested.append (.closing .nil))⟩
  | @scale ds g es hds hg hes =>
    have hgap : Spacing g := fun c hc => isSpacing_iff.mpr (.inl (hg c hc))
    obtain ⟨ts, hts, rfl, hnested⟩ :=
      givesBack_number hds (r := ',' :: (g ++ (es ++ ')' :: r))) (by simp)
    obtain ⟨us, hus, htext, hnested'⟩ :=
      (givesBack_spacing hgap _).append (givesBack_number hes (r := ')' :: r) (by simp))
    have hclosed := hus.trans (.cons (read_closing r) (.refl r))
    have hreads := hts.trans (.cons (read_comma _) (by simpa using hclosed))
    exact ⟨.leftParen :: (ts ++ .comma :: (us ++ [.rightParen])),
      .cons (read_opening _) (by simpa using hreads), by simp [text, htext],
      .opening (hnested.append (.comma (hnested'.append (.closing .nil))))⟩

theorem givesBack_defines {mode : SplitMode} {column : Column} (hs : Defines mode s column)
    (hr : EndsWord r) : GivesBack s r := by
  cases hs with
  | @mk n w g y x t fs hn hw hg hg' hy hx ht =>
    have hflags : GivesBack t r := givesBack_letters ht.isAlpha_or_isSpacing hr
    have hsuffix : GivesBack (x ++ t) r := (givesBack_suffix hx _).append hflags
    have hends : EndsWord (x ++ t ++ r) := by
      rcases hx.head? with rfl | hopen
      · exact endsWord_append (ht.isSpacing_head? (by simp)) hr
      · obtain ⟨x, rfl⟩ := List.head?_eq_some_iff.mp hopen
        exact endsWord_cons (by decide) _
    have htype : GivesBack (y ++ (x ++ t)) r := (givesBack_identifier hy hends).append hsuffix
    have hhead : ∀ c ∈ (g ++ (y ++ (x ++ t)) ++ r).head?, isSpacing c = true := by
      obtain ⟨d, g, rfl⟩ := List.exists_cons_of_ne_nil hg'
      rintro c ⟨⟩
      exact hg d List.mem_cons_self
    exact (givesBack_wrapped hn hw hhead).append ((givesBack_spacing hg _).append htype)

/-! ## Clauses -/

theorem isEnclosed_of_append (h : isEnclosed d (w ++ s) = true)
    (hw : ∀ c ∈ w, isSeparator c = false) : isEnclosed d s = true := by
  induction w with
  | nil => exact h
  | cons c w ih =>
    have hne : c ≠ ',' ∧ c ≠ '(' ∧ c ≠ ')' := by
      simpa [isSeparator, and_assoc] using hw c List.mem_cons_self
    simp only [List.cons_append, isEnclosed, hne, if_false, Bool.and_eq_true] at h
    exact ih h.2 fun e he => hw e (List.mem_cons_of_mem c he)

theorem isEnclosed_append (h : isEnclosed d s = true) (ht : isEnclosed 0 t = true) :
    isEnclosed d (s ++ t) = true := by
  induction s generalizing d with
  | nil =>
    have hd : d = 0 := by simpa [isEnclosed] using h
    rwa [hd]
  | cons c s ih =>
    simp only [List.cons_append, isEnclosed] at h ⊢
    split_ifs at h ⊢
    · exact ih h
    all_goals
      rw [Bool.and_eq_true] at h ⊢
      exact ⟨h.1, ih h.2⟩

theorem isEnclosed_blanks (hg : Blanks g) : isEnclosed 0 g = true := by
  induction g with
  | nil => rfl
  | cons c g ih =>
    have hc : isBlank c = true := hg c List.mem_cons_self
    have hne : c ≠ '(' ∧ c ≠ ')' ∧ c ≠ ',' := by
      refine ⟨?_, ?_, ?_⟩ <;> rintro rfl <;> revert hc <;> decide
    simp [isEnclosed, hne, isPlain, hc, ih fun d hd => hg d (List.mem_cons_of_mem c hd)]

theorem isMark_head?_of_isEnclosed (h : isEnclosed d s = true) (hr : ∀ c ∈ r.head?, c = ',') :
    ∀ c ∈ (s ++ r).head?, isMark c = false := by
  cases s with
  | nil =>
    intro c hc
    rw [hr c hc]
    decide
  | cons c s =>
    rintro _ ⟨⟩
    simp only [isEnclosed] at h
    split_ifs at h with h1 h2 h3
    · rw [h1]; decide
    · rw [h2]; decide
    · rw [h3]; decide
    · exact isMark_eq_of_isPlain (Bool.and_eq_true_iff.mp h).1

/-- Enclosed text is read up to the comma behind it. -/
theorem exists_reads_of_isEnclosed (h : isEnclosed d s = true) (hr : ∀ c ∈ r.head?, c = ',') :
    ∃ ts, Reads (s ++ r) ts r ∧ Nested d ts := by
  induction hlength : s.length using Nat.strong_induction_on generalizing s d with
  | h k ih =>
    subst hlength
    cases s with
    | nil =>
      have hd : d = 0 := by simpa [isEnclosed] using h
      exact ⟨[], .refl r, hd ▸ .nil⟩
    | cons c s =>
      simp only [isEnclosed] at h
      split_ifs at h with h1 h2 h3
      · obtain ⟨ts, hts, hnested⟩ := ih s.length (by simp) h rfl
        exact ⟨_, h1 ▸ .cons (read_opening _) hts, .opening hnested⟩
      · obtain ⟨hd, h⟩ := Bool.and_eq_true_iff.mp h
        obtain ⟨d, rfl⟩ := Nat.exists_eq_succ_of_ne_zero (by simpa using hd)
        obtain ⟨ts, hts, hnested⟩ := ih s.length (by simp) h rfl
        exact ⟨_, h2 ▸ .cons (read_closing _) hts, .closing hnested⟩
      · obtain ⟨hd, h⟩ := Bool.and_eq_true_iff.mp h
        obtain ⟨d, rfl⟩ := Nat.exists_eq_succ_of_ne_zero (by simpa using hd)
        obtain ⟨ts, hts, hnested⟩ := ih s.length (by simp) h rfl
        exact ⟨_, h3 ▸ .cons (read_comma _) hts, .comma hnested⟩
      · obtain ⟨hplain, h⟩ := Bool.and_eq_true_iff.mp h
        obtain ⟨w, u, hlexeme, x, hx, hsep⟩ :=
          exists_lexeme hplain (isMark_head?_of_isEnclosed h hr)
        -- The lexeme ends before the comma, and so within the text.
        obtain ⟨v, rfl, rfl⟩ : ∃ v, s = x ++ v ∧ u = v ++ r := by
          rcases List.append_eq_append_iff.mp hx with ⟨m, rfl, hm⟩ | ⟨m, rfl, rfl⟩
          · obtain _ | ⟨e, m⟩ := m
            · exact ⟨[], by simp, by simpa using hm.symm⟩
            · obtain rfl := hr e (by simp [hm])
              exact absurd (hsep ',' (by simp)) (by decide)
          · exact ⟨m, rfl, rfl⟩
        have hc : isSeparator c = false := by simp [isSeparator, h1, h2, h3]
        obtain ⟨ts, hts, hnested⟩ :=
          ih v.length (by simp only [List.length_cons, List.length_append]; omega)
            (isEnclosed_of_append h hsep) rfl
        exact ⟨_, .cons (read_of_lexeme hc hlexeme) hts, .other hnested⟩

theorem exists_of_reads_cons (h : Reads (c :: s) ts r) (hlength : r.length ≤ s.length) :
    ∃ t u ts', ts = t :: ts' ∧ read c s = some (t, u) ∧ Reads u ts' r := by
  cases h with
  | refl => exact absurd hlength (by simp)
  | cons h hs => exact ⟨_, _, _, rfl, h, hs⟩

theorem isMark_head?_of_isAlpha_or_eq (hk : ∀ c ∈ k, c.isAlpha = true ∨ c = ' ')
    (hs : ∀ c ∈ s.head?, isMark c = false) : ∀ c ∈ (k ++ s).head?, isMark c = false := by
  cases k with
  | nil => exact hs
  | cons e k =>
    rintro c ⟨⟩
    rcases hk e List.mem_cons_self with he | rfl
    · exact isMark_eq_of_isWordPart (isWordPart_of_isAlpha he)
    · decide

/-- A word that is taken of the first text, or goes on behind it. -/
theorem prefix_takeWhile_append
    (h : k.dropWhile isWordPart = [] ∨ k.dropWhile isWordPart <+: u) (s : List Char) :
    k <+: (k ++ s).takeWhile isWordPart ++ u := by
  by_cases hnil : k.dropWhile isWordPart = []
  · rw [List.takeWhile_append_of_pos (List.dropWhile_eq_nil_iff.mp hnil), List.append_assoc]
    exact List.prefix_append _ _
  · obtain ⟨x, rfl⟩ := h.resolve_left hnil
    obtain ⟨htake, -⟩ := takeWhile_append_of_dropWhile hnil s
    rw [htake, ← List.append_assoc, List.takeWhile_append_dropWhile]
    exact List.prefix_append _ _

/-- Words with single spaces are given back, whatever the text behind them gives. -/
theorem prefix_textOf (hk : ∀ c ∈ k, c.isAlpha = true ∨ c = ' ')
    (hs : ∀ c ∈ s.head?, isMark c = false) (h : Reads (k ++ s) ts r)
    (hr : r.length ≤ s.length) : k <+: textOf ts := by
  induction hlength : k.length using Nat.strong_induction_on generalizing k ts with
  | h n ih =>
    subst hlength
    cases k with
    | nil => exact List.nil_prefix
    | cons c k =>
      rw [List.cons_append] at h
      obtain ⟨t, u, ts', rfl, hread, hrest⟩ := exists_of_reads_cons h (by simp; omega)
      have htail : ∀ d ∈ k, d.isAlpha = true ∨ d = ' ' :=
        fun d hd => hk d (List.mem_cons_of_mem c hd)
      rcases hk c List.mem_cons_self with hc | rfl
      · rw [read_word (isWordStart_of_isAlpha hc) (isMark_head?_of_isAlpha_or_eq htail hs)] at hread
        obtain ⟨rfl, rfl⟩ := Prod.mk.inj (Option.some.inj hread)
        refine (List.prefix_cons_inj c).mpr (prefix_takeWhile_append ?_ s)
        refine or_iff_not_imp_left.mpr fun hnil => ?_
        rw [(takeWhile_append_of_dropWhile hnil s).2] at hrest
        have hsublist := List.dropWhile_sublist (l := k) isWordPart
        exact ih _ (Nat.lt_succ_of_le hsublist.length_le)
          (fun d hd => htail d (hsublist.subset hd)) hrest rfl
      · rw [read_spacing (by decide)] at hread
        obtain ⟨rfl, rfl⟩ := Prod.mk.inj (Option.some.inj hread)
        exact (List.prefix_cons_inj ' ').mpr (ih k.length (by simp) htail hrest rfl)

/-- The first words of a clause are given back. -/
theorem exists_reads_of_clause (hs : IsClause .parenDepth s) (hh : Spacing h)
    (hr : ∀ c ∈ r.head?, c = ',') :
    ∃ ts k, Reads (s ++ h ++ r) ts r ∧ Nested 0 ts ∧ constrainsTable k = true ∧
      k <+: textOf ts := by
  obtain ⟨hclause, henclosed⟩ := hs
  have hall : isEnclosed 0 (s ++ h) = true :=
    isEnclosed_append henclosed (isEnclosed_blanks hh.blanks)
  obtain ⟨ts, hts, hnested⟩ := exists_reads_of_isEnclosed hall hr
  obtain ⟨word, hword, k, v, rfl, hk⟩ := constrainsTable_iff.mp hclause
  have hletters := isAlpha_or_eq_of_mem_tableConstraints hword hk
  have hsep : ∀ c ∈ k, isSeparator c = false := by
    intro c hc
    rcases hletters c hc with h | rfl
    · exact isSeparator_eq_of_isWordPart (isWordPart_of_isAlpha h)
    · decide
  have hbehind : isEnclosed 0 (v ++ h) = true :=
    isEnclosed_of_append (List.append_assoc k v h ▸ hall) hsep
  refine ⟨ts, k, hts, hnested, constrainsTable_iff.mpr ⟨word, hword, k, [], by simp, hk⟩, ?_⟩
  rw [List.append_assoc k, List.append_assoc k] at hts
  exact prefix_textOf hletters (isMark_head?_of_isEnclosed hbehind hr) hts (by simp; omega)

/-! ## Definitions and bodies -/

/-- In front of a comma and at the end of a body, the text is read in one piece, which defines
the columns. -/
def IsPiece (p : List Char) (cs : List Column) : Prop :=
  ∀ r : List Char, (∀ c ∈ r.head?, c = ',') →
    ∃ ts, Reads (p ++ r) ts r ∧ Nested 0 ts ∧ columnsOf (textOf ts) = cs

/-- The body is read, and its pieces define the columns. -/
def HasPieces (b : List Char) (cs : List Column) : Prop :=
  ∃ ts, Reads b ts [] ∧ (splitTokens 0 ts).flatMap columnsOf = cs

theorem HasPieces.definedColumns_eq (h : HasPieces b cs) : definedColumns .parenDepth b = cs := by
  obtain ⟨ts, hts, hcolumns⟩ := h
  rw [Ddl.definedColumns_eq, pieces, splitByDepth?, hts.ofText_eq]
  exact hcolumns

namespace IsPiece

theorem hasPieces (h : IsPiece p cs) : HasPieces p cs := by
  obtain ⟨ts, hts, hnested, hcolumns⟩ := h [] (by simp)
  refine ⟨ts, by simpa using hts, ?_⟩
  have hsplit := hnested.splitTokens_append []
  rw [List.append_nil] at hsplit
  simp [hsplit, splitTokens, prepend, hcolumns]

theorem hasPieces_cons {cs' : List Column} (h : IsPiece p cs) (hb : HasPieces b cs') :
    HasPieces (p ++ ',' :: b) (cs ++ cs') := by
  obtain ⟨us, hus, hrest⟩ := hb
  obtain ⟨ts, hts, hnested, hcolumns⟩ := h (',' :: b) (by simp)
  refine ⟨ts ++ .comma :: us, hts.trans (.cons (read_comma b) hus), ?_⟩
  rw [hnested.splitTokens_append, splitTokens, if_pos ⟨rfl, rfl⟩]
  simp [prepend, hcolumns, hrest]

end IsPiece

theorem endsWord_of_head?_eq (hr : ∀ c ∈ r.head?, c = ',') : EndsWord r := by
  intro c hc
  rw [hr c hc]
  decide

/-- A definition is read up to the comma behind it, and in one piece. -/
theorem IsDefinition.isPiece (h : IsDefinition ok .parenDepth p cs) : IsPiece p (columnsOf p) := by
  intro r hr
  cases h with
  | @column g s h column hg hs _ hh =>
    have hbehind : EndsWord (h ++ r) :=
      endsWord_append (fun c hc => hh c (List.mem_of_mem_head? hc)) (endsWord_of_head?_eq hr)
    have hcolumn : GivesBack (s ++ h) r :=
      (givesBack_defines hs hbehind).append (givesBack_spacing hh r)
    obtain ⟨ts, hts, htext, hnested⟩ := (givesBack_spacing hg _).append hcolumn
    exact ⟨ts, hts, hnested, congrArg columnsOf htext⟩
  | @clause g s h hg hs hh =>
    obtain ⟨ts, hts, htext, hnested⟩ := givesBack_spacing hg (s ++ h ++ r)
    obtain ⟨us, k, hus, hnested', hclause, x, hx⟩ := exists_reads_of_clause hs hh hr
    refine ⟨ts ++ us, ?_, hnested.append hnested', ?_⟩
    · simpa using hts.trans hus
    · rw [textOf_append, htext, ← hx, columnsOf_clause hg hclause, columnsOf_clause hg hs.1]

/-- Both ways to split give of a body what they give of each definition. -/
theorem IsBody.definedColumns_eq {mode : SplitMode} {f : List Column → List Column}
    (hf : ∀ cs cs', f (cs ++ cs') = f cs ++ f cs')
    (hdefinition : ∀ {p cs}, IsDefinition ok mode p cs → columnsOf p = f cs)
    (h : IsBody ok mode b cs) : definedColumns mode b = f cs := by
  cases mode with
  | naive => exact (Ddl.definedColumns_eq .naive b).trans (h.columnsOf_splitNaive hf hdefinition)
  | parenDepth =>
    refine HasPieces.definedColumns_eq ?_
    induction h with
    | last h => exact hdefinition h ▸ h.isPiece.hasPieces
    | more h _ ih =>
      rw [hf, ← hdefinition h]
      exact h.isPiece.hasPieces_cons ih

/-- Under the split by depth a written schema gives back its columns and the tables that have
any, if no column is taken for a clause. -/
theorem tables_parenDepth_of_isWritten {ts : List Table}
    (h : IsWritten StartsNoClause .parenDepth s ts) :
    tables .parenDepth s = ts.filter (·.columns ≠ []) := by
  have hbody : ∀ {b cs}, IsBody StartsNoClause .parenDepth b cs →
      definedColumns .parenDepth b = id cs :=
    fun hb => hb.definedColumns_eq (fun _ _ => rfl) (·.columnsOf_eq)
  rw [h.tables_eq hbody, map_mapColumns_id]

theorem tables_parenDepth_of_isWritten_scale :
    tables .parenDepth "CREATE TABLE t(a DECIMAL(10, 2)not null,Check(a,(0x1)));".toList =
      [⟨"t", [⟨"a", "decimal(10, 2)", false, true, false⟩]⟩] := by
  have hcolumn : Defines .parenDepth "a DECIMAL(10, 2)not null".toList
      (.written ['a'] _ [.notNull]) :=
    .mk (n := ['a']) (g := [' ']) (y := ['D', 'E', 'C', 'I', 'M', 'A', 'L'])
      (x := ['(', '1', '0', ',', ' ', '2', ')']) ⟨by decide, by decide⟩ .bare (by decide)
      (by decide) ⟨by decide, by decide⟩
      (.scale (a := ['1', '0']) (g := [' ']) (b := ['2']) ⟨by decide, by decide⟩ (by simp)
        ⟨by decide, by decide⟩)
      (.cons (f := .notNull) (g := []) (k := ['n', 'o', 't', ' ', 'n', 'u', 'l', 'l']) (by decide)
        (by decide) (by decide) .nil)
  have hclause : IsClause .parenDepth "Check(a,(0x1))".toList := ⟨by decide, by decide⟩
  have hbody : IsBody StartsNoClause .parenDepth
      "a DECIMAL(10, 2)not null,Check(a,(0x1))".toList _ :=
    .more (.column (g := []) (h := []) (by decide) hcolumn (by decide) (by decide))
      (.last (.clause (g := []) (h := []) (by decide) hclause (by decide)))
  exact tables_parenDepth_of_isWritten (isWritten_openingText hbody)

theorem not_forall_tables_parenDepth_eq :
    ¬∀ s ts, IsWritten (fun d => constrainsTable d = false) .parenDepth s ts →
      (∀ t ∈ ts, t.columns ≠ []) → tables .parenDepth s = ts := by
  intro h
  have heq := h _ _ (isWritten_openingText (isBody_primaryKey .parenDepth)) (by simp)
  exact absurd heq (by decide +kernel)

end Salvage.Ddl
