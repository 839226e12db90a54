import Mathlib.Data.List.Infix
import Salvage.Proofs.Ddl.Opening

/-! # Written definitions

A body holds definitions with commas between them. A definition is that of a column, with
its name, its type and its flags, or a clause about the whole table. What is read of a
definition is the column that is written, and nothing of a clause.
-/

namespace Salvage.Ddl

open Text

/-! ## Columns -/

/-- A blank between the tokens of a definition. -/
def isSpacing (c : Char) : Bool := c == ' ' || c == '\t' || c == '\n'

def Spacing (w : List Char) : Prop := ∀ c ∈ w, isSpacing c = true

instance (w : List Char) : Decidable (Spacing w) :=
  decidable_of_iff (w.all isSpacing = true) List.all_eq_true

/-- Letters, digits and underscores, no digit first. -/
structure IsIdentifier (w : List Char) : Prop where
  head : w.head?.any (fun c => c.isAlpha || c == '_') = true
  all_eq : w.all isTypeChar = true

instance (w : List Char) : Decidable (IsIdentifier w) :=
  decidable_of_iff (_ ∧ _) ⟨fun h => ⟨h.1, h.2⟩, fun h => ⟨h.head, h.all_eq⟩⟩

/-- The name as it is, or between two quotes. -/
inductive IsWrapped (n : List Char) : List Char → Prop where
  | bare : IsWrapped n n
  | quoted {q : Char} (hq : isIdentifierQuote q = true) : IsWrapped n (q :: (n ++ [q]))

structure IsNumber (ds : List Char) : Prop where
  ne_nil : ds ≠ []
  all_eq : ds.all Char.isDigit = true

/-- The numbers behind the word of a type. Two of them have a comma between them, which only
the split by depth leaves alone. -/
inductive IsSuffix : SplitMode → List Char → Prop where
  | none {mode : SplitMode} : IsSuffix mode []
  | precision {mode : SplitMode} {a : List Char} (ha : IsNumber a) :
      IsSuffix mode ('(' :: (a ++ [')']))
  | scale {a g b : List Char} (ha : IsNumber a) (hg : ∀ c ∈ g, c = ' ') (hb : IsNumber b) :
      IsSuffix .parenDepth ('(' :: (a ++ ',' :: (g ++ (b ++ [')']))))

inductive Flag where
  | primaryKey
  | notNull
  | unique
deriving DecidableEq, Repr

def Flag.words : Flag → List Char
  | .primaryKey => "PRIMARY KEY".toList
  | .notNull => "NOT NULL".toList
  | .unique => "UNIQUE".toList

/-- The text of flags, each behind blanks. The first one may stand without them if `free`
holds. -/
inductive IsFlags : Prop → List Flag → List Char → Prop where
  | nil {free : Prop} : IsFlags free [] []
  | cons {free : Prop} {f : Flag} {fs : List Flag} {g k w : List Char} (hg : Spacing g)
      (hfree : g = [] → free) (hk : isWord k f.words = true) (h : IsFlags False fs w) :
      IsFlags free (f :: fs) (g ++ (k ++ w))

/-- The column with a name, a type in any case and flags. -/
def Column.written (n y : List Char) (fs : List Flag) : Column where
  name := String.ofList n
  type := String.ofList (lower y)
  primaryKey := decide (Flag.primaryKey ∈ fs)
  notNull := decide (Flag.notNull ∈ fs)
  unique := decide (Flag.unique ∈ fs)

/-- The text of the definition of a column. -/
inductive Defines (mode : SplitMode) : List Char → Column → Prop where
  | mk {n w g y x t : List Char} {fs : List Flag} (hn : IsIdentifier n) (hw : IsWrapped n w)
      (hg : Spacing g) (hg' : g ≠ []) (hy : IsIdentifier y) (hx : IsSuffix mode x)
      (ht : IsFlags (x ≠ []) fs t) :
      Defines mode (w ++ (g ++ (y ++ (x ++ t)))) (.written n (y ++ x) fs)

variable {a b g k n s t w x : List Char} {c : Char} {fs : List Flag} {mode : SplitMode}

/-! ## Characters of definitions -/

theorem isSpacing_iff : isSpacing c = true ↔ c = ' ' ∨ c = '\t' ∨ c = '\n' := by
  simp [isSpacing, or_assoc]

theorem isBlank_of_isSpacing (h : isSpacing c = true) : isBlank c = true := by
  rcases isSpacing_iff.mp h with rfl | rfl | rfl <;> decide

theorem Spacing.blanks (h : Spacing w) : Blanks w := fun c hc => isBlank_of_isSpacing (h c hc)

theorem Spacing.append (hg : Spacing g) (hw : Spacing w) : Spacing (g ++ w) := fun c hc =>
  (List.mem_append.mp hc).elim (hg c) (hw c)

/-- A character of a name without quotes. -/
def isPlainNameChar (c : Char) : Bool := isTypeChar c || c == '.'

theorem isPlainNameChar_iff : isPlainNameChar c = true ↔ isTypeChar c = true ∨ c = '.' := by
  simp [isPlainNameChar]

theorem isNameChar_iff :
    isNameChar c = true ↔ isPlainNameChar c = true ∨ isIdentifierQuote c = true := by
  simp [isNameChar, isPlainNameChar, isTypeChar]

theorem isTableNameChar_of_isNameChar (h : isNameChar c = true) : isTableNameChar c = true := by
  simp [isTableNameChar, h]

theorem isBlank_eq_of_isNameChar (h : isNameChar c = true) : isBlank c = false :=
  isBlank_eq_of_isTableNameChar (isTableNameChar_of_isNameChar h)

theorem isNameChar_of_isTypeChar (h : isTypeChar c = true) : isNameChar c = true :=
  isNameChar_iff.mpr (.inl (isPlainNameChar_iff.mpr (.inl h)))

theorem isTypeChar_of_isAlpha (h : c.isAlpha = true) : isTypeChar c = true := by
  simp [isTypeChar, Char.isAlphanum, h]

theorem isTypeChar_of_isDigit (h : c.isDigit = true) : isTypeChar c = true := by
  simp [isTypeChar, Char.isAlphanum, h]

theorem isBlank_eq_of_isTypeChar (h : isTypeChar c = true) : isBlank c = false :=
  isBlank_eq_of_isNameChar (isNameChar_of_isTypeChar h)

theorem isLineBreak_eq_of_isBlank (h : isBlank c = false) : isLineBreak c = false := by
  have hne : c ≠ '\r' ∧ c ≠ '\n' := by
    constructor <;> rintro rfl <;> revert h <;> decide
  simp [isLineBreak, hne]

theorem joinLines_append (s t : List Char) : joinLines (s ++ t) = joinLines s ++ joinLines t :=
  List.map_append

theorem joinLines_eq_self (h : ∀ c ∈ s, isLineBreak c = false) : joinLines s = s := by
  rw [joinLines, List.map_congr_left (g := id) fun c hc => by simp [h c hc], List.map_id]

theorem joinLines_of_isAlpha_or_eq (hk : ∀ c ∈ k, c.isAlpha = true ∨ c = ' ') :
    joinLines k = k := by
  refine joinLines_eq_self fun c hc => ?_
  rcases hk c hc with h | rfl
  · exact isLineBreak_eq_of_isBlank (isBlank_eq_of_isTypeChar (isTypeChar_of_isAlpha h))
  · decide

theorem Spacing.joinLines (h : Spacing w) : Spacing (joinLines w) := by
  intro c hc
  obtain ⟨d, hd, rfl⟩ := List.mem_map.mp hc
  rcases isSpacing_iff.mp (h d hd) with rfl | rfl | rfl <;> decide

namespace IsIdentifier

theorem exists_cons (h : IsIdentifier w) :
    ∃ c r, w = c :: r ∧ (c.isAlpha = true ∨ c = '_') := by
  obtain ⟨c, hc, hstart⟩ := (Option.any_eq_true _ _).mp h.head
  obtain ⟨r, rfl⟩ := List.head?_eq_some_iff.mp hc
  exact ⟨c, r, rfl, by simpa using hstart⟩

theorem all (h : IsIdentifier w) : ∀ c ∈ w, isTypeChar c = true := List.all_eq_true.mp h.all_eq

theorem ne_nil (h : IsIdentifier w) : w ≠ [] := by
  obtain ⟨c, r, rfl, -⟩ := h.exists_cons
  exact List.cons_ne_nil c r

theorem isBlank_eq (h : IsIdentifier w) : ∀ c ∈ w, isBlank c = false :=
  fun c hc => isBlank_eq_of_isTypeChar (h.all c hc)

theorem isPlainNameChar (h : IsIdentifier w) : ∀ c ∈ w, isPlainNameChar c = true :=
  fun c hc => isPlainNameChar_iff.mpr (.inl (h.all c hc))

end IsIdentifier

namespace IsWrapped

theorem ne_nil (hw : IsWrapped n w) (hn : n ≠ []) : w ≠ [] := by
  cases hw with
  | bare => exact hn
  | quoted => exact List.cons_ne_nil _ _

theorem isNameChar (hw : IsWrapped n w) (hn : ∀ c ∈ n, isPlainNameChar c = true) :
    ∀ c ∈ w, isNameChar c = true := by
  intro c hc
  rw [isNameChar_iff]
  cases hw with
  | bare => exact .inl (hn c hc)
  | quoted hq =>
    rcases List.mem_cons.mp hc with rfl | hc
    · exact .inr hq
    rcases List.mem_append.mp hc with hc | hc
    · exact .inl (hn c hc)
    · exact .inr (List.mem_singleton.mp hc ▸ hq)

theorem stripQuotes_eq (hw : IsWrapped n w) (hn : ∀ c ∈ n, isPlainNameChar c = true) :
    stripQuotes w = n := by
  have hself : stripQuotes n = n := by
    refine List.filter_eq_self.mpr fun c hc => ?_
    cases h : isIdentifierQuote c with
    | false => rfl
    | true =>
      have hor : c = '"' ∨ c = '\x60' := by simpa [isIdentifierQuote] using h
      have hplain := hn c hc
      rcases hor with rfl | rfl <;> revert hplain <;> decide
  cases hw with
  | bare => exact hself
  | quoted hq =>
    rw [stripQuotes, List.filter_cons_of_neg (by simp [hq]), List.filter_append,
      List.filter_cons_of_neg (by simp [hq]), List.filter_nil, List.append_nil]
    exact hself

end IsWrapped

/-! ## Numbers behind a type -/

theorem IsNumber.all {ds : List Char} (h : IsNumber ds) : ∀ d ∈ ds, d.isDigit = true :=
  List.all_eq_true.mp h.all_eq

theorem IsNumber.takeSome_append {ds : List Char} (h : IsNumber ds)
    (ht : ∀ c ∈ t.head?, c.isDigit = false) : takeSome Char.isDigit (ds ++ t) = some (ds, t) :=
  takeSome_eq_some_iff.mpr ⟨rfl, h.ne_nil, h.all, ht⟩

theorem IsNumber.isBlank_head? {ds : List Char} (h : IsNumber ds) (t : List Char) :
    ∀ c ∈ (ds ++ t).head?, isBlank c = false := by
  refine Ddl.isBlank_head? h.ne_nil (fun c hc => isTableNameChar_of_isNameChar ?_) t
  exact isNameChar_of_isTypeChar (isTypeChar_of_isDigit (h.all c hc))

namespace IsSuffix

theorem typeNumbers?_append (hx : IsSuffix mode x) (hne : x ≠ []) (t : List Char) :
    typeNumbers? (x ++ t) = some (x, t) := by
  cases hx with
  | none => exact absurd rfl hne
  | @precision _ ds hds =>
    have htake := hds.takeSome_append (t := ')' :: t) (by simp)
    simp [typeNumbers?, htake, secondNumber]
  | @scale ds g es hds hg hes =>
    have htake := hds.takeSome_append (t := ',' :: (g ++ (es ++ ')' :: t))) (by simp)
    have htake' := hes.takeSome_append (t := ')' :: t) (by simp)
    have hblanks : ∀ c ∈ g, isBlank c = true := by
      intro c hc
      rw [hg c hc]
      decide
    have hskip := dropWhile_append_of_head? hblanks (hes.isBlank_head? (')' :: t))
    have hkeep := takeWhile_append_of_head? hblanks (hes.isBlank_head? (')' :: t))
    simp [typeNumbers?, htake, secondNumber, skipBlanks, hskip, hkeep, htake']

theorem mem (hx : IsSuffix mode x) (hc : c ∈ x) :
    c.isDigit = true ∨ c = '(' ∨ c = ')' ∨ c = ',' ∨ c = ' ' := by
  cases hx with
  | none => simp at hc
  | precision hds =>
    simp only [List.mem_cons, List.mem_append, List.not_mem_nil, or_false] at hc
    rcases hc with rfl | hc | rfl
    · simp
    · exact .inl (hds.all c hc)
    · simp
  | scale hds hg hes =>
    simp only [List.mem_cons, List.mem_append, List.not_mem_nil, or_false] at hc
    rcases hc with rfl | hc | rfl | hc | hc | rfl
    · simp
    · exact .inl (hds.all c hc)
    · simp
    · simp [hg c hc]
    · exact .inl (hes.all c hc)
    · simp

theorem getLast? (hx : IsSuffix mode x) : x = [] ∨ x.getLast? = some ')' := by
  cases hx with
  | none => exact .inl rfl
  | precision => exact .inr (by rw [← List.cons_append, List.getLast?_concat])
  | scale =>
    right
    simp only [← List.cons_append, ← List.append_assoc, List.getLast?_concat]

theorem joinLines_eq (hx : IsSuffix mode x) : joinLines x = x := by
  refine joinLines_eq_self fun c hc => ?_
  rcases hx.mem hc with h | rfl | rfl | rfl | rfl
  · exact isLineBreak_eq_of_isBlank (isBlank_eq_of_isTypeChar (isTypeChar_of_isDigit h))
  all_goals decide

theorem head? (hx : IsSuffix mode x) : x = [] ∨ x.head? = some '(' := by
  cases hx with
  | none => exact .inl rfl
  | precision => exact .inr rfl
  | scale => exact .inr rfl

end IsSuffix

/-! ## Flags -/

theorem apart_of_head?_ne {u : List Char} {a : Char} (hw : w.head? = some a)
    (hu : ∀ c ∈ u.head?, c ≠ a) (hne : u ≠ []) : Apart w u := by
  obtain ⟨c, u, rfl⟩ := List.exists_cons_of_ne_nil hne
  obtain ⟨w, rfl⟩ := List.head?_eq_some_iff.mp hw
  have hc : c ≠ a := hu c rfl
  constructor <;> intro h
  · exact hc (List.cons_prefix_cons.mp h).1.symm
  · exact hc (List.cons_prefix_cons.mp h).1

instance (s t : List Char) : Decidable (Apart s t) := inferInstanceAs (Decidable (¬_ ∧ ¬_))

namespace Flag

/-- No flag is found within another one or across its end. -/
theorem apart {f f' : Flag} (h : f ≠ f') :
    ∀ u ∈ (lower f'.words).tails, u ≠ [] → Apart (lower f.words) u := by
  cases f <;> cases f' <;> first | exact absurd rfl h | decide

theorem exists_head? (f : Flag) : ∃ a, (lower f.words).head? = some a ∧ isSpacing a = false := by
  cases f
  · exact ⟨'p', by decide, by decide⟩
  · exact ⟨'n', by decide, by decide⟩
  · exact ⟨'u', by decide, by decide⟩

theorem isAlpha_or_eq (f : Flag) : f.words.all (fun a => a.isAlpha || a == ' ') = true := by
  cases f <;> decide

theorem tight {f : Flag} (hk : isWord k f.words = true) : Tight k := by
  cases f <;> exact tight_of_isWord hk (by decide) (by decide)

theorem containsWord_nil (f : Flag) : containsWord [] f.words = false := by cases f <;> decide

end Flag

theorem Spacing.lower_eq (hg : Spacing g) : lower g = g := lower_eq_self hg.blanks.isAlpha_eq

namespace IsFlags

variable {free : Prop}

theorem isAlpha_or_isSpacing (h : IsFlags free fs t) :
    ∀ c ∈ t, c.isAlpha = true ∨ isSpacing c = true := by
  induction h with
  | nil => simp
  | @cons _ f fs g k w hg _ hk _ ih =>
    intro c hc
    rcases List.mem_append.mp hc with hc | hc
    · exact .inr (hg c hc)
    rcases List.mem_append.mp hc with hc | hc
    · exact (isAlpha_or_eq_of_isWord f.isAlpha_or_eq hk c hc).imp_right fun h => by rw [h]; decide
    · exact ih c hc

theorem isSpacing_head? (h : IsFlags free fs t) (hfree : ¬free) :
    ∀ c ∈ t.head?, isSpacing c = true := by
  cases h with
  | nil => simp
  | @cons _ f fs g k w hg hg' =>
    obtain ⟨d, g, rfl⟩ := List.exists_cons_of_ne_nil fun h => hfree (hg' h)
    rintro c ⟨⟩
    exact hg d List.mem_cons_self

theorem exists_getLast? (h : IsFlags free fs t) :
    t = [] ∨ ∃ c, t.getLast? = some c ∧ isBlank c = false := by
  induction h with
  | nil => exact .inl rfl
  | @cons _ f fs g k w _ _ hk _ ih =>
    right
    rcases ih with rfl | ⟨c, hc, hblank⟩
    · obtain ⟨-, c, hc, hblank⟩ := Flag.tight hk
      exact ⟨c, by simp [hc], hblank⟩
    · exact ⟨c, by simp [hc], hblank⟩

theorem joinLines (h : IsFlags free fs t) : IsFlags free fs (joinLines t) := by
  induction h with
  | nil => exact .nil
  | @cons free f fs g k w hg hfree hk _ ih =>
    have hself := joinLines_of_isAlpha_or_eq (isAlpha_or_eq_of_isWord f.isAlpha_or_eq hk)
    rw [joinLines_append, joinLines_append, hself]
    refine .cons hg.joinLines (fun hnil => hfree ?_) hk ih
    exact List.map_eq_nil_iff.mp hnil

/-- A flag is found just where it is written. -/
theorem containsWord_eq (h : IsFlags free fs t) (f : Flag) :
    containsWord t f.words = decide (f ∈ fs) := by
  induction h with
  | nil => simp [f.containsWord_nil]
  | @cons _ f' fs g k w hg _ hk _ ih =>
    have hgap : containsWord (g ++ (k ++ w)) f.words = containsWord (k ++ w) f.words := by
      refine containsWord_append_of_apart (fun u hu hsuffix => ?_) _
      rw [hg.lower_eq] at hsuffix
      obtain ⟨a, ha, hspacing⟩ := f.exists_head?
      refine apart_of_head?_ne ha (fun c hc => ?_) hu
      rintro rfl
      simp [hg c (hsuffix.subset (List.mem_of_mem_head? hc))] at hspacing
    rw [hgap]
    by_cases hf : f = f'
    · subst hf
      have hstart : startsWithWord (k ++ w) f.words = true := by
        rw [startsWithWord_iff, lower_append, isWord_iff.mp hk]
        exact List.prefix_append _ _
      rw [containsWord_of_startsWithWord hstart]
      simp
    · have hflag : containsWord (k ++ w) f.words = containsWord w f.words := by
        refine containsWord_append_of_apart (fun u hu hsuffix => ?_) _
        rw [isWord_iff.mp hk] at hsuffix
        exact Flag.apart hf u ((List.mem_tails _ _).mpr hsuffix) hu
      rw [hflag, ih]
      simp [hf]

end IsFlags

/-! ## Definitions of columns -/

/-- The word of a type ends where its numbers or the flags begin. -/
theorem isTypeChar_head? (hx : IsSuffix mode x) (ht : IsFlags (x ≠ []) fs t) :
    ∀ c ∈ (x ++ t).head?, isTypeChar c = false := by
  intro c hc
  rcases hx.head? with rfl | hopen
  · have hspacing := ht.isSpacing_head? (by simp) c hc
    rcases isSpacing_iff.mp hspacing with rfl | rfl | rfl <;> decide
  · rw [List.head?_append, hopen] at hc
    obtain rfl := Option.some.inj hc
    decide

theorem typeNumbers?_getD (hx : IsSuffix mode x) (ht : IsFlags (x ≠ []) fs t) :
    (typeNumbers? (x ++ t)).getD ([], x ++ t) = (x, t) := by
  by_cases hne : x = []
  · subst hne
    have hnone : typeNumbers? t = none := by
      obtain _ | ⟨c, t⟩ := t
      · rfl
      · have hspacing := ht.isSpacing_head? (by simp) c rfl
        rcases isSpacing_iff.mp hspacing with rfl | rfl | rfl <;> rfl
    rw [List.nil_append, hnone, Option.getD_none]
  · rw [hx.typeNumbers?_append hne, Option.getD_some]

namespace Defines

variable {column : Column}

theorem ofSegment?_eq (h : Defines mode s column) : Column.ofSegment? s = some column := by
  cases h with
  | @mk n w g y x t fs hn hw hg hg' hy hx ht =>
    have hname : takeSome isNameChar (w ++ (g ++ (y ++ (x ++ t)))) =
        some (w, g ++ (y ++ (x ++ t))) := by
      refine takeSome_eq_some_iff.mpr
        ⟨rfl, hw.ne_nil hn.ne_nil, hw.isNameChar hn.isPlainNameChar, ?_⟩
      obtain ⟨d, g, rfl⟩ := List.exists_cons_of_ne_nil hg'
      rintro c ⟨⟩
      rcases isSpacing_iff.mp (hg d List.mem_cons_self) with rfl | rfl | rfl <;> decide
    have hblanks : skipSomeBlanks (g ++ (y ++ (x ++ t))) = some (y ++ (x ++ t)) := by
      refine skipSomeBlanks_eq_some_iff.mpr ⟨g, rfl, hg', hg.blanks, ?_⟩
      obtain ⟨d, r, rfl, -⟩ := hy.exists_cons
      rintro c ⟨⟩
      exact hy.isBlank_eq d List.mem_cons_self
    have htype : takeSome isTypeChar (y ++ (x ++ t)) = some (y, x ++ t) :=
      takeSome_eq_some_iff.mpr ⟨rfl, hy.ne_nil, hy.all, isTypeChar_head? hx ht⟩
    have hflag := fun f : Flag => ht.containsWord_eq f
    simp only [Column.ofSegment?, hname, hblanks, htype, typeNumbers?_getD hx ht,
      Option.bind_eq_bind, Option.bind_some, hw.stripQuotes_eq hn.isPlainNameChar]
    exact congrArg some (Column.mk.injEq .. ▸ ⟨rfl, rfl, hflag .primaryKey, hflag .notNull,
      hflag .unique⟩)

theorem tight (h : Defines mode s column) : Tight s := by
  cases h with
  | @mk n w g y x t fs hn hw _ _ hy hx ht =>
    have hname : Tight w := tight_of_forall (hw.ne_nil hn.ne_nil) fun c hc =>
      isBlank_eq_of_isNameChar (hw.isNameChar hn.isPlainNameChar c hc)
    have htype : Tight (y ++ x) := by
      refine (tight_of_forall hy.ne_nil hy.isBlank_eq).append_of_getLast? ?_
      exact hx.getLast?.imp_right fun h => ⟨')', h, by decide⟩
    have hflags : Tight (y ++ (x ++ t)) := by
      rw [← List.append_assoc]
      exact htype.append_of_getLast? ht.exists_getLast?
    exact hname.append hflags g

/-- Line breaks in a definition are between its tokens only. -/
theorem joinLines (h : Defines mode s column) : Defines mode (joinLines s) column := by
  cases h with
  | @mk n w g y x t fs hn hw hg hg' hy hx ht =>
    have hname : Text.joinLines w = w := joinLines_eq_self fun c hc =>
      isLineBreak_eq_of_isBlank (isBlank_eq_of_isNameChar (hw.isNameChar hn.isPlainNameChar c hc))
    have htype : Text.joinLines y = y := joinLines_eq_self fun c hc =>
      isLineBreak_eq_of_isBlank (hy.isBlank_eq c hc)
    rw [joinLines_append, joinLines_append, joinLines_append, joinLines_append, hname, htype,
      hx.joinLines_eq]
    exact .mk hn hw hg.joinLines (fun h => hg' (List.map_eq_nil_iff.mp h)) hy hx ht.joinLines

end Defines

end Salvage.Ddl
