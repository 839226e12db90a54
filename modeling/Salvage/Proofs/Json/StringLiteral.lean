import Mathlib.Data.List.Induction
import Salvage.Json.StringLiteral

/-! # What a string literal takes

An escape is read from its own characters alone, whatever follows it. A literal runs to the
first quote that no backslash escapes.
-/

namespace Salvage.Json

/-- From inside a literal, `t` is what follows its closing quote. -/
inductive Closes : List Char → List Char → Prop where
  | quote (t : List Char) : Closes ('"' :: t) t
  | plain {c : Char} {s t : List Char} (hq : c ≠ '"') (hb : c ≠ '\\') (h : Closes s t) :
      Closes (c :: s) t
  | escape (c : Char) {s t : List Char} (h : Closes s t) : Closes ('\\' :: c :: s) t

theorem Closes.append {w s t : List Char} (hw : ∀ c ∈ w, c ≠ '"' ∧ c ≠ '\\') (h : Closes s t) :
    Closes (w ++ s) t := by
  induction w with
  | nil => exact h
  | cons c w ih =>
    obtain ⟨hq, hb⟩ := hw c List.mem_cons_self
    exact .plain hq hb (ih fun c' h' => hw c' (List.mem_cons_of_mem c h'))

/-! ## Hexadecimal digits -/

def IsHexDigit (c : Char) : Prop := (hexValue? c).isSome = true

theorem IsHexDigit.ne {c d : Char} (h : IsHexDigit c) (hd : hexValue? d = none) : c ≠ d := by
  rintro rfl
  simp [IsHexDigit, hd] at h

theorem isHexDigit_of_hexNumber? {ds : List Char} {n : Nat} (h : hexNumber? ds = some n) :
    ∀ d ∈ ds, IsHexDigit d := by
  induction ds using List.reverseRecOn generalizing n with
  | nil => simp
  | append_singleton ds d ih =>
    rw [hexNumber?, List.foldl_append] at h
    obtain ⟨m, hm, h⟩ := Option.bind_eq_some_iff.mp h
    obtain ⟨v, hv, -⟩ := Option.bind_eq_some_iff.mp h
    intro c hc
    rcases List.mem_append.mp hc with hc | hc
    · exact ih hm c hc
    · obtain rfl := List.mem_singleton.mp hc
      simp [IsHexDigit, hv]

theorem fourHexDigits_eq_ok_iff {s r : List Char} {n : Nat} :
    fourHexDigits s = .ok (n, r) ↔
      ∃ ds, s = ds ++ r ∧ ds.length = 4 ∧ hexNumber? ds = some n := by
  constructor
  · intro h
    unfold fourHexDigits at h
    split at h
    · rename_i m hm
      obtain ⟨rfl, rfl⟩ := Prod.mk.inj (Except.ok.inj h)
      split at hm
      · exact ⟨s.take 4, (List.take_append_drop 4 s).symm, List.length_take_of_le ‹_›, hm⟩
      · simp at hm
    · split at h <;> simp at h
  · rintro ⟨ds, rfl, hlen, hn⟩
    have htake : (ds ++ r).take 4 = ds := by rw [← hlen, List.take_left]
    have hdrop : (ds ++ r).drop 4 = r := by rw [← hlen, List.drop_left]
    have hle : 4 ≤ (ds ++ r).length := by simp [hlen]
    simp only [fourHexDigits, if_pos hle, htake, hdrop, hn]

/-! ## Escapes -/

theorem pairMark_eq_ok_iff {c : Char} {s r : List Char} : pairMark c s = .ok r ↔ s = c :: r := by
  cases s with
  | nil => simp [pairMark]
  | cons d t =>
    by_cases h : d = c <;> simp [pairMark, h]

theorem trailingHalf_eq_ok_iff {leading : Nat} {s r : List Char} {c : Char} :
    trailingHalf leading s = .ok (c, r) ↔
      ∃ n t, s = '\\' :: 'u' :: t ∧ fourHexDigits t = .ok (n, r) ∧
        isTrailingSurrogate n = true ∧ surrogatePair leading n = c := by
  constructor
  · intro h
    simp only [trailingHalf, bind, Except.bind] at h
    split at h
    · simp at h
    · rename_i t ht
      split at h
      · simp at h
      · rename_i u hu
        split at h
        · simp at h
        · rename_i v hv
          split at h
          · obtain ⟨rfl, rfl⟩ := Prod.mk.inj (Except.ok.inj h)
            rw [pairMark_eq_ok_iff.mp ht, pairMark_eq_ok_iff.mp hu]
            exact ⟨v.1, u, rfl, hv, ‹_›, rfl⟩
          · simp [throw, throwThe, MonadExceptOf.throw] at h
  · rintro ⟨n, t, rfl, ht, hn, rfl⟩
    simp [trailingHalf, pairMark, ht, hn, bind, Except.bind, pure, Except.pure]

theorem numericEscape_eq_ok_iff {s r : List Char} {c : Char} :
    numericEscape s = .ok (c, r) ↔
      ∃ n t, fourHexDigits s = .ok (n, t) ∧ isTrailingSurrogate n = false ∧
        ((isLeadingSurrogate n = true ∧ trailingHalf n t = .ok (c, r)) ∨
          (isLeadingSurrogate n = false ∧ Char.ofNat n = c ∧ t = r)) := by
  constructor
  · intro h
    simp only [numericEscape, bind, Except.bind] at h
    split at h
    · simp at h
    · rename_i v hv
      split at h
      · simp [throw, throwThe, MonadExceptOf.throw] at h
      · rename_i hn
        refine ⟨v.1, v.2, hv, by simpa using hn, ?_⟩
        split at h
        · exact .inl ⟨‹_›, h⟩
        · obtain ⟨rfl, rfl⟩ := Prod.mk.inj (Except.ok.inj h)
          exact .inr ⟨(Bool.not_eq_true _).mp ‹_›, rfl, rfl⟩
  · rintro ⟨n, t, ht, hn, h⟩
    rcases h with ⟨hl, h⟩ | ⟨hl, rfl, rfl⟩
    · simp [numericEscape, ht, hn, hl, h, bind, Except.bind]
    · simp [numericEscape, ht, hn, hl, bind, Except.bind, pure, Except.pure]

theorem escape_eq_ok_iff {s r : List Char} {d : Char} :
    escape s = .ok (d, r) ↔
      ∃ c t, s = c :: t ∧
        ((c = 'u' ∧ numericEscape t = .ok (d, r)) ∨ (c ≠ 'u' ∧ unescape? c = some d ∧ t = r)) := by
  constructor
  · intro h
    cases s with
    | nil => simp [escape] at h
    | cons c t =>
      refine ⟨c, t, rfl, ?_⟩
      simp only [escape] at h
      split at h
      · exact .inl ⟨‹_›, h⟩
      · split at h
        · rename_i hd
          obtain ⟨rfl, rfl⟩ := Prod.mk.inj (Except.ok.inj h)
          exact .inr ⟨‹_›, hd, rfl⟩
        · simp at h
  · rintro ⟨c, t, rfl, ⟨rfl, h⟩ | ⟨hc, hd, rfl⟩⟩
    · simpa [escape] using h
    · simp [escape, hc, hd]

/-- The part of an escape behind its letter: digits, or digits and a second escape. -/
def IsEscapeTail (w : List Char) : Prop :=
  (∀ c ∈ w, IsHexDigit c) ∨
    ∃ ds es, w = ds ++ '\\' :: 'u' :: es ∧ (∀ c ∈ ds, IsHexDigit c) ∧ ∀ c ∈ es, IsHexDigit c

theorem IsEscapeTail.closes {w s t : List Char} (hw : IsEscapeTail w) (h : Closes s t) :
    Closes (w ++ s) t := by
  have hplain : ∀ {ds u : List Char}, (∀ c ∈ ds, IsHexDigit c) → Closes u t → Closes (ds ++ u) t :=
    fun hds hu => hu.append fun c hc => ⟨(hds c hc).ne rfl, (hds c hc).ne rfl⟩
  rcases hw with hw | ⟨ds, es, rfl, hds, hes⟩
  · exact hplain hw h
  · rw [List.append_assoc]
    exact hplain hds (.escape 'u' (hplain hes h))

theorem IsEscapeTail.notMem {w : List Char} (hw : IsEscapeTail w) {c : Char}
    (hc : hexValue? c = none) (hb : c ≠ '\\') (hu : c ≠ 'u') : c ∉ w := by
  have hhex : ∀ {ds : List Char}, (∀ c ∈ ds, IsHexDigit c) → c ∉ ds :=
    fun hds h => (hds c h).ne hc rfl
  rcases hw with hw | ⟨ds, es, rfl, hds, hes⟩
  · exact hhex hw
  · simp only [List.mem_append, List.mem_cons, not_or]
    exact ⟨hhex hds, hb, hu, hhex hes⟩

/-- An escape is a letter and a tail, and reads the same in front of any text. -/
theorem exists_of_escape {s r : List Char} {d : Char} (h : escape s = .ok (d, r)) :
    ∃ c w, s = c :: (w ++ r) ∧ (c = 'u' ∨ (unescape? c).isSome = true) ∧ IsEscapeTail w ∧
      ∀ t, escape (c :: (w ++ t)) = .ok (d, t) := by
  obtain ⟨c, t, rfl, ⟨rfl, hnum⟩ | ⟨hc, hd, rfl⟩⟩ := escape_eq_ok_iff.mp h
  · obtain ⟨n, u, hn, hlone, hhalf⟩ := numericEscape_eq_ok_iff.mp hnum
    obtain ⟨ds, rfl, hlen, hds⟩ := fourHexDigits_eq_ok_iff.mp hn
    rcases hhalf with ⟨hl, htwo⟩ | ⟨hl, rfl, rfl⟩
    · obtain ⟨m, v, rfl, hm, htrail, rfl⟩ := trailingHalf_eq_ok_iff.mp htwo
      obtain ⟨es, rfl, hlen', hes⟩ := fourHexDigits_eq_ok_iff.mp hm
      refine ⟨'u', ds ++ '\\' :: 'u' :: es, by simp, .inl rfl, .inr ⟨ds, es, rfl,
        isHexDigit_of_hexNumber? hds, isHexDigit_of_hexNumber? hes⟩, fun t => ?_⟩
      refine escape_eq_ok_iff.mpr ⟨'u', _, rfl, .inl ⟨rfl, ?_⟩⟩
      rw [List.append_assoc]
      refine numericEscape_eq_ok_iff.mpr ⟨n, _, fourHexDigits_eq_ok_iff.mpr
        ⟨ds, rfl, hlen, hds⟩, hlone, .inl ⟨hl, ?_⟩⟩
      exact trailingHalf_eq_ok_iff.mpr ⟨m, es ++ t, rfl, fourHexDigits_eq_ok_iff.mpr
        ⟨es, rfl, hlen', hes⟩, htrail, rfl⟩
    · refine ⟨'u', ds, rfl, .inl rfl, .inl (isHexDigit_of_hexNumber? hds), fun t => ?_⟩
      refine escape_eq_ok_iff.mpr ⟨'u', _, rfl, .inl ⟨rfl, ?_⟩⟩
      exact numericEscape_eq_ok_iff.mpr ⟨n, t, fourHexDigits_eq_ok_iff.mpr
        ⟨ds, rfl, hlen, hds⟩, hlone, .inr ⟨hl, rfl, rfl⟩⟩
  · refine ⟨c, [], rfl, .inr (by simp [hd]), .inl (by simp), fun t => ?_⟩
    exact escape_eq_ok_iff.mpr ⟨c, t, rfl, .inr ⟨hc, hd, rfl⟩⟩

/-! ## Literals -/

/-- The character stands for itself in a literal. -/
def IsVerbatim (c : Char) : Prop := c ≠ '"' ∧ c ≠ '\\' ∧ 0x20 ≤ c.toNat

/-- The content of a literal, from behind its opening quote. -/
inductive QuotedRead : List Char → List Char → List Char → Prop where
  | close (r : List Char) : QuotedRead ('"' :: r) [] r
  | escape {s t r k : List Char} {d : Char} (hd : escape s = .ok (d, t))
      (h : QuotedRead t k r) : QuotedRead ('\\' :: s) (d :: k) r
  | verbatim {c : Char} {s r k : List Char} (hc : IsVerbatim c) (h : QuotedRead s k r) :
      QuotedRead (c :: s) (c :: k) r

theorem quoted_eq_ok_iff {s r k : List Char} : quoted s = .ok (k, r) ↔ QuotedRead s k r := by
  constructor
  · intro h
    fun_induction quoted s generalizing k with
    | case1 => simp at h
    | case2 t =>
      obtain ⟨rfl, rfl⟩ := Prod.mk.inj (Except.ok.inj h)
      exact .close t
    | case3 => simp at h
    | case4 t d u hd _ ih =>
      obtain ⟨es, hes, rfl⟩ := mapRead_eq_ok_iff.1 h
      exact .escape hd (ih hes)
    | case5 => simp at h
    | case6 c t hq hb hc ih =>
      obtain ⟨es, hes, rfl⟩ := mapRead_eq_ok_iff.1 h
      exact .verbatim ⟨hq, hb, Nat.not_lt.mp hc⟩ (ih hes)
  · intro h
    induction h with
    | close r => simp [quoted]
    | @escape s t r k d hd _ ih =>
      rw [quoted]
      simp only [if_neg (show '\\' ≠ '"' by decide), if_true]
      split
      · simp_all
      · rename_i x u hx
        obtain ⟨rfl, rfl⟩ : d = x ∧ t = u := by simpa [hd] using hx
        rw [ih, mapRead]
    | verbatim hc _ ih =>
      rw [quoted, if_neg hc.1, if_neg hc.2.1, if_neg (Nat.not_lt.mpr hc.2.2), ih, mapRead]

/-- A literal goes on behind characters that stand for themselves. -/
theorem QuotedRead.of_append {w s r k : List Char} (hw : ∀ c ∈ w, IsVerbatim c)
    (h : QuotedRead (w ++ s) k r) : ∃ k', QuotedRead s k' r := by
  induction w generalizing k with
  | nil => exact ⟨k, h⟩
  | cons c w ih =>
    obtain ⟨hq, hb, -⟩ := hw c List.mem_cons_self
    cases h with
    | close => exact absurd rfl hq
    | escape => exact absurd rfl hb
    | verbatim _ h => exact ih (fun c' h' => hw c' (List.mem_cons_of_mem c h')) h

theorem QuotedRead.closes {s t ds : List Char} (h : QuotedRead s ds t) : Closes s t := by
  induction h with
  | close r => exact .quote r
  | escape hd _ ih =>
    obtain ⟨c, w, rfl, -, hw, -⟩ := exists_of_escape hd
    exact .escape c (hw.closes ih)
  | verbatim hc _ ih => exact .plain hc.1 hc.2.1 ih

end Salvage.Json
