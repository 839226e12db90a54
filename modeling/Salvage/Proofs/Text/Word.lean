import Salvage.Proofs.Text.Blank
import Salvage.Proofs.Text.Pattern

/-! # Words up to case

Texts that differ in the case of ASCII letters only have the same small letters. A word is
looked for among small letters, and not found across a stretch that it cannot share an end
with.
-/

namespace Salvage.Text

variable {k r s t word : List Char}

/-- The text with small letters for capital ones. -/
def lower (s : List Char) : List Char := s.map Char.toLower

theorem lower_cons (c : Char) (s : List Char) : lower (c :: s) = c.toLower :: lower s := rfl

theorem lower_append (s t : List Char) : lower (s ++ t) = lower s ++ lower t := List.map_append

theorem sameLetter_iff {a b : Char} : sameLetter a b = true ↔ a.toLower = b.toLower := by
  simp [sameLetter]

theorem foldsTo_of_sameLetter {a b : Char} (h : sameLetter a b = true) : foldsTo a b = true := by
  simp [foldsTo, h]

theorem dropWord?_sameLetter_eq_some_iff :
    dropWord? sameLetter word s = some r ↔ ∃ k, s = k ++ r ∧ lower k = lower word := by
  fun_induction dropWord? sameLetter word s with
  | case1 s =>
    rw [Option.some.injEq]
    constructor
    · rintro rfl
      exact ⟨[], rfl, rfl⟩
    · rintro ⟨k, rfl, hk⟩
      obtain rfl := List.map_eq_nil_iff.mp hk
      rfl
  | case2 a word c s hc ih =>
    rw [ih]
    have hletter := sameLetter_iff.mp hc
    constructor
    · rintro ⟨k, rfl, hk⟩
      exact ⟨c :: k, rfl, by rw [lower_cons, lower_cons, hletter, hk]⟩
    · rintro ⟨k, hs, hk⟩
      obtain _ | ⟨d, k⟩ := k
      · simp [lower] at hk
      · obtain ⟨rfl, rfl⟩ := List.cons.inj hs
        exact ⟨k, rfl, (List.cons.inj hk).2⟩
  | case3 a word c s hc =>
    refine iff_of_false (by simp) ?_
    rintro ⟨k, hs, hk⟩
    obtain _ | ⟨d, k⟩ := k
    · simp [lower] at hk
    · obtain ⟨rfl, rfl⟩ := List.cons.inj hs
      exact hc (sameLetter_iff.mpr (List.cons.inj hk).1.symm)
  | case4 a word =>
    refine iff_of_false (by simp) ?_
    rintro ⟨k, hs, hk⟩
    obtain ⟨rfl, -⟩ := List.nil_eq_append_iff.mp hs
    simp [lower] at hk

theorem isWord_iff : isWord s word = true ↔ lower s = lower word := by
  rw [isWord, beq_iff_eq, dropWord?_sameLetter_eq_some_iff]
  simp

theorem startsWithWord_iff : startsWithWord s word = true ↔ lower word <+: lower s := by
  rw [startsWithWord, Option.isSome_iff_exists]
  simp only [dropWord?_sameLetter_eq_some_iff]
  constructor
  · rintro ⟨r, k, rfl, hk⟩
    rw [lower_append, hk]
    exact List.prefix_append _ _
  · rintro ⟨r, hr⟩
    obtain ⟨k, u, rfl, hk, -⟩ := List.map_eq_append_iff.mp hr.symm
    exact ⟨u, k, rfl, hk⟩

/-- A keyword in any case is dropped as a pattern drops it. -/
theorem dropWord?_foldsTo_append (h : isWord k word = true) (s : List Char) :
    dropWord? foldsTo word (k ++ s) = some s := by
  rw [isWord_iff] at h
  induction word generalizing k with
  | nil =>
    obtain rfl := List.map_eq_nil_iff.mp h
    rfl
  | cons a word ih =>
    obtain _ | ⟨c, k⟩ := k
    · simp [lower] at h
    · obtain ⟨hc, hk⟩ := List.cons.inj h
      rw [List.cons_append, dropWord?, if_pos (foldsTo_of_sameLetter (sameLetter_iff.mpr hc.symm)),
        ih hk]

theorem isBlank_toLower {c : Char} (hc : isBlank c = true) : isBlank c.toLower = true := by
  have hall : blankChars.all (fun c => isBlank c.toLower) = true := by decide
  exact of_isBlank (p := fun c => isBlank c.toLower) hall hc

theorem isBlank_eq_of_toLower {a c : Char} (h : c.toLower = a.toLower)
    (ha : isBlank a.toLower = false) : isBlank c = false := by
  cases hc : isBlank c with
  | false => rfl
  | true =>
    have hlower := isBlank_toLower hc
    rw [h, ha] at hlower
    exact hlower.symm

theorem exists_head?_of_isWord (hk : isWord k word = true)
    (hfirst : word.head?.any (!isBlank ·.toLower) = true) :
    ∃ c, k.head? = some c ∧ isBlank c = false := by
  obtain ⟨a, ha, hblank⟩ := (Option.any_eq_true _ _).mp hfirst
  have hhead := congrArg List.head? (isWord_iff.mp hk)
  simp only [lower, List.head?_map, ha, Option.map_some, Option.map_eq_some_iff] at hhead
  obtain ⟨c, hc, hca⟩ := hhead
  exact ⟨c, hc, isBlank_eq_of_toLower hca (by simpa using hblank)⟩

/-- A keyword in any case begins with a letter. -/
theorem isBlank_head?_of_isWord (hk : isWord k word = true)
    (hfirst : word.head?.any (!isBlank ·.toLower) = true) (s : List Char) :
    ∀ c ∈ (k ++ s).head?, isBlank c = false := by
  obtain ⟨d, hd, hblank⟩ := exists_head?_of_isWord hk hfirst
  intro c hc
  rw [List.head?_append, hd] at hc
  rwa [← Option.some.inj hc]

theorem isAlpha_toLower (c : Char) : c.toLower.isAlpha = c.isAlpha := by
  delta Char.isAlpha Char.isUpper Char.isLower Char.toLower
  split <;> grind [UInt32.toNat_add, Char.toNat_val]

theorem isUpper_toLower (c : Char) : c.toLower.isUpper = false := by
  delta Char.isUpper Char.toLower
  split <;> grind [UInt32.toNat_add, Char.toNat_val]

theorem toLower_eq_of_isUpper {c : Char} (h : c.isUpper = false) : c.toLower = c := by
  delta Char.isUpper at h
  exact dif_neg (by simpa using h)

theorem toLower_toLower (c : Char) : c.toLower.toLower = c.toLower :=
  toLower_eq_of_isUpper (isUpper_toLower c)

theorem toLower_eq_self {c : Char} (h : c.isAlpha = false) : c.toLower = c := by
  delta Char.isAlpha at h
  exact toLower_eq_of_isUpper (Bool.or_eq_false_iff.mp h).1

theorem isAlpha_eq_of_isDigit {c : Char} (h : c.isDigit = true) : c.isAlpha = false := by
  delta Char.isAlpha Char.isUpper Char.isLower
  delta Char.isDigit at h
  grind

theorem isLower_toLower {c : Char} (h : c.isAlpha = true) : c.toLower.isLower = true := by
  rw [← isAlpha_toLower] at h
  delta Char.isAlpha at h
  rwa [isUpper_toLower, Bool.false_or] at h

theorem lower_eq_self (hs : ∀ c ∈ s, c.isAlpha = false) : lower s = s :=
  (List.map_congr_left fun c hc => toLower_eq_self (hs c hc)).trans (List.map_id s)

theorem Blanks.isAlpha_eq (hs : Blanks s) : ∀ c ∈ s, c.isAlpha = false := by
  have hnone : blankChars.all (!Char.isAlpha ·) = true := by decide
  intro c hc
  simpa using of_isBlank hnone (hs c hc)

/-- A character that is no letter is the only one with its small letter. -/
theorem toLower_eq_iff {c d : Char} (hd : d.isAlpha = false) : c.toLower = d ↔ c = d := by
  constructor
  · intro h
    have hc : c.isAlpha = false := by rw [← isAlpha_toLower, h, hd]
    rwa [toLower_eq_self hc] at h
  · rintro rfl
    exact toLower_eq_self hd

/-- What holds of a word without regard to case holds of the word in any case. -/
theorem all_of_isWord {p : Char → Bool} (hp : ∀ c, p c.toLower = p c) (hword : word.all p = true)
    (h : isWord k word = true) : ∀ c ∈ k, p c = true := by
  intro c hc
  have hlower : c.toLower ∈ lower word := isWord_iff.mp h ▸ List.mem_map_of_mem hc
  obtain ⟨a, ha, hac⟩ := List.mem_map.mp hlower
  rw [← hp, ← hac, hp]
  exact List.all_eq_true.mp hword a ha

theorem isAlpha_of_isWord (hword : word.all Char.isAlpha = true) (h : isWord k word = true) :
    ∀ c ∈ k, c.isAlpha = true :=
  all_of_isWord isAlpha_toLower hword h

/-- Keywords in any case are letters with single spaces. -/
theorem isAlpha_or_eq_of_isWord (hword : word.all (fun a => a.isAlpha || a == ' ') = true)
    (h : isWord k word = true) : ∀ c ∈ k, c.isAlpha = true ∨ c = ' ' := by
  intro c hc
  have hspace : ∀ c : Char, (c.toLower == ' ') = (c == ' ') := fun c => by
    rw [Bool.eq_iff_iff, beq_iff_eq, beq_iff_eq, toLower_eq_iff (by decide)]
  simpa using all_of_isWord (fun c => by rw [isAlpha_toLower, hspace]) hword h c hc

theorem tight_of_isWord (hk : isWord k word = true)
    (hfirst : word.head?.any (!isBlank ·.toLower) = true)
    (hlast : word.getLast?.any (!isBlank ·.toLower) = true) : Tight k := by
  refine ⟨exists_head?_of_isWord hk hfirst, ?_⟩
  obtain ⟨a, ha, hblank⟩ := (Option.any_eq_true _ _).mp hlast
  have hend := congrArg List.getLast? (isWord_iff.mp hk)
  simp only [lower, List.getLast?_map, ha, Option.map_some, Option.map_eq_some_iff] at hend
  obtain ⟨c, hc, hca⟩ := hend
  exact ⟨c, hc, isBlank_eq_of_toLower hca (by simpa using hblank)⟩

theorem lower_lower (s : List Char) : lower (lower s) = lower s := by
  rw [lower, lower, List.map_map]
  exact List.map_congr_left fun c _ => toLower_toLower c

/-! ## Words at the start -/

/-- A word does not go on behind a character that it lacks. -/
theorem startsWithWord_append_cons {c : Char} (hword : c.toLower ∉ lower word) (s t : List Char) :
    startsWithWord (s ++ c :: t) word = startsWithWord s word := by
  rw [Bool.eq_iff_iff, startsWithWord_iff, startsWithWord_iff, lower_append, lower_cons]
  refine ⟨fun h => ?_, fun h => h.trans (List.prefix_append _ _)⟩
  refine (List.prefix_or_prefix_of_prefix h (List.prefix_append _ _)).elim id ?_
  rintro ⟨u, hu⟩
  rw [← hu, List.prefix_append_right_inj] at h
  obtain _ | ⟨d, u⟩ := u
  · rw [List.append_nil] at hu
    exact hu ▸ List.prefix_refl _
  · obtain ⟨rfl, -⟩ := List.cons_prefix_cons.mp h
    exact absurd (hu ▸ by simp) hword

/-- Up to a character that neither text has before it, a word and a text agree or differ. -/
theorem mark_prefix_iff {α : Type*} {a : α} {v w x y : List α} (hx : a ∉ x) (hy : a ∉ y) :
    x ++ a :: v <+: y ++ a :: w ↔ x = y ∧ v <+: w := by
  induction x generalizing y with
  | nil =>
    cases y with
    | nil => simp
    | cons b y =>
      have hne : a ≠ b := List.ne_of_not_mem_cons hy
      simp [List.cons_prefix_cons, hne]
  | cons b x ih =>
    cases y with
    | nil =>
      have hne : b ≠ a := (List.ne_of_not_mem_cons hx).symm
      simp [List.cons_prefix_cons, hne]
    | cons d y =>
      rw [List.cons_append, List.cons_append, List.cons_prefix_cons,
        ih (List.not_mem_of_not_mem_cons hx) (List.not_mem_of_not_mem_cons hy), List.cons.injEq,
        and_assoc]

/-- Two words with a character between them that neither the first one nor the text in front of
it has. -/
theorem startsWithWord_mark {c : Char} {v : List Char} (hs : c.toLower ∉ lower s)
    (hv : c.toLower ∉ lower v) (t : List Char) :
    startsWithWord (s ++ c :: t) (v ++ c :: word) = (isWord s v && startsWithWord t word) := by
  rw [Bool.eq_iff_iff, Bool.and_eq_true, startsWithWord_iff, startsWithWord_iff, isWord_iff,
    lower_append, lower_append, lower_cons, lower_cons, mark_prefix_iff hv hs, eq_comm]

/-! ## Search -/

theorem containsWord_cons (c : Char) (s word : List Char) :
    containsWord (c :: s) word = (startsWithWord (c :: s) word || containsWord s word) := by
  rw [containsWord]

theorem containsWord_iff : containsWord s word = true ↔ lower word <:+: lower s := by
  induction s with
  | nil =>
    rw [containsWord, Bool.or_false, startsWithWord_iff]
    exact (List.prefix_nil.trans List.infix_nil.symm)
  | cons c s ih =>
    rw [containsWord_cons, Bool.or_eq_true, ih, startsWithWord_iff, lower_cons,
      List.infix_cons_iff]

theorem containsWord_of_startsWithWord (h : startsWithWord s word = true) :
    containsWord s word = true := by
  rw [containsWord.eq_def, h, Bool.true_or]

/-- Neither text begins with the other. -/
def Apart (s t : List Char) : Prop := ¬s <+: t ∧ ¬t <+: s

/-- A word that no end of a stretch begins like is not found there, nor across its end. -/
theorem containsWord_append_of_apart (h : ∀ u, u ≠ [] → u <:+ lower s → Apart (lower word) u)
    (t : List Char) : containsWord (s ++ t) word = containsWord t word := by
  induction s with
  | nil => rfl
  | cons c s ih =>
    have hstart : startsWithWord (c :: (s ++ t)) word = false := by
      rw [Bool.eq_false_iff, Ne, startsWithWord_iff, ← List.cons_append, lower_append]
      intro hprefix
      obtain ⟨hword, hstretch⟩ := h _ (by simp [lower]) (List.suffix_refl _)
      rcases List.prefix_or_prefix_of_prefix hprefix (List.prefix_append _ _) with hp | hp
      · exact hword hp
      · exact hstretch hp
    rw [List.cons_append, containsWord_cons, hstart, Bool.false_or,
      ih fun u hu hsuffix => h u hu (hsuffix.trans (List.suffix_cons _ _))]

end Salvage.Text
