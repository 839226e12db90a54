import Mathlib.Algebra.Group.Nat.Even
import Salvage.Proofs.Csv.Candidates
import Salvage.Proofs.Text.Run

/-! # Candidates that split all lines alike

A delimiter outside quotes has an even number of quotes in front of it, and such delimiters
part a line into its fields. No candidate scores above the bonus, and those that reach it split
all sampled lines into the same number of fields, more than one. So the first of these is
taken. Where no candidate stands outside quotes all score alike, and the first of all is taken.
-/

namespace Salvage.Csv

open Text

variable {s l p : List Char} {fs : List (List Char)} {c d : Char}

/-- The delimiter stands somewhere in the line behind an even number of quotes. -/
def StandsUnquoted (d : Char) (l : List Char) : Prop :=
  ∃ a b, l = a ++ d :: b ∧ Even (a.count '"')

/-- The line is made of the given fields, with a delimiter outside quotes between each two and
none within a field. -/
inductive HasFields (d : Char) : List Char → List (List Char) → Prop where
  | last {f : List Char} (hf : ¬StandsUnquoted d f) : HasFields d f [f]
  | more {f l : List Char} {fs : List (List Char)} (hf : ¬StandsUnquoted d f)
      (heven : Even (f.count '"')) (h : HasFields d l fs) : HasFields d (f ++ d :: l) (f :: fs)

/-- The delimiter splits all sampled lines into the same number of fields, more than one. -/
def SplitsAlike (s : List Char) (d : Char) : Prop :=
  ∃ k, 1 < k ∧ ∀ l ∈ sample s, ∃ fs, HasFields d l fs ∧ fs.length = k

/-! ## Fields of a line -/

/-- Nothing is counted where every place of the delimiter is inside quotes. -/
theorem delimiterCount_eq_zero_iff (hd : d ≠ '"') (q : Bool) (l : List Char) :
    delimiterCount d q l = 0 ↔
      ∀ a b, l = a ++ d :: b → (q = true ↔ Even (a.count '"')) := by
  induction l generalizing q with
  | nil => simp [delimiterCount]
  | cons c l ih =>
    rw [forall_append_cons_iff, delimiterCount]
    by_cases hc : c = '"'
    · subst hc
      have hflip : ∀ n : ℕ, (q = true ↔ Even (n + 1)) ↔ ((!q) = true ↔ Even n) := by
        intro n
        cases q <;> simp [Nat.even_add_one]
      simp only [if_pos, ih, List.count_cons_self, hflip, hd.symm, false_implies, true_and]
    · have hcount : ∀ a : List Char, (c :: a).count '"' = a.count '"' := fun a =>
        List.count_cons_of_ne hc
      simp only [if_neg hc, hcount]
      cases q with
      | true => simp [ih]
      | false =>
        by_cases hcd : c = d
        · simp [hcd]
        · simp [hcd, ih]

theorem delimiterCount_false_eq_zero_iff (hd : d ≠ '"') :
    delimiterCount d false l = 0 ↔ ¬StandsUnquoted d l := by
  rw [delimiterCount_eq_zero_iff hd, StandsUnquoted]
  simp

/-- What is counted in a text and behind it, where an odd number of quotes changes sides. -/
theorem delimiterCount_append_eq (q : Bool) (f r : List Char) :
    delimiterCount d q (f ++ r) = delimiterCount d q f +
      delimiterCount d (if Even (f.count '"') then q else !q) r := by
  induction f generalizing q with
  | nil => simp [delimiterCount]
  | cons c f ih =>
    rw [List.cons_append, delimiterCount, delimiterCount]
    by_cases hc : c = '"'
    · subst hc
      rw [if_pos rfl, if_pos rfl, ih, List.count_cons_self]
      by_cases heven : Even (f.count '"')
      · simp [heven, Nat.even_add_one]
      · simp [heven, Nat.even_add_one]
    · rw [if_neg hc, if_neg hc, List.count_cons_of_ne hc]
      split
      · rw [ih, Nat.add_right_comm]
      · exact ih q

theorem fieldCount_of_not_standsUnquoted (hd : d ≠ '"') (h : ¬StandsUnquoted d l) :
    fieldCount d l = 1 := by
  rw [fieldCount, (delimiterCount_false_eq_zero_iff hd).mpr h]

theorem HasFields.length_eq (hd : d ≠ '"') (h : HasFields d l fs) :
    fs.length = fieldCount d l := by
  induction h with
  | last hf => exact (fieldCount_of_not_standsUnquoted hd hf).symm
  | @more f l fs hf heven _ ih =>
    have hfield : delimiterCount d false f = 0 := (delimiterCount_false_eq_zero_iff hd).mpr hf
    have hmark : delimiterCount d false (d :: l) = delimiterCount d false l + 1 := by
      simp [delimiterCount, hd]
    rw [List.length_cons, ih, fieldCount, fieldCount, delimiterCount_append_eq, if_pos heven,
      hfield, hmark, Nat.zero_add]

theorem standsUnquoted_concat_iff :
    StandsUnquoted d (p ++ [c]) ↔ StandsUnquoted d p ∨ c = d ∧ Even (p.count '"') := by
  constructor
  · rintro ⟨a, b, hsplit, heven⟩
    rcases List.eq_nil_or_concat b with rfl | ⟨b, e, rfl⟩
    · obtain ⟨rfl, hc⟩ := List.append_inj' hsplit rfl
      exact .inr ⟨by simpa using hc, heven⟩
    · rw [List.concat_eq_append, ← List.cons_append, ← List.append_assoc] at hsplit
      exact .inl ⟨a, b, (List.append_inj' hsplit rfl).1, heven⟩
  · rintro (⟨a, b, rfl, heven⟩ | ⟨rfl, heven⟩)
    · exact ⟨a, b ++ [c], by simp, heven⟩
    · exact ⟨p, [], rfl, heven⟩

theorem exists_hasFields (d : Char) (l : List Char) : ∃ fs, HasFields d l fs := by
  -- The part `p` in front is the beginning of the first field.
  suffices h : ∀ p, ¬StandsUnquoted d p → ∃ fs, HasFields d (p ++ l) fs from
    h [] (by simp [StandsUnquoted])
  induction l with
  | nil =>
    intro p hp
    exact ⟨[p], by simpa using HasFields.last hp⟩
  | cons c l ih =>
    intro p hp
    by_cases hc : c = d ∧ Even (p.count '"')
    · obtain ⟨rfl, heven⟩ := hc
      obtain ⟨fs, hfs⟩ := ih [] (by simp [StandsUnquoted])
      exact ⟨p :: fs, .more hp heven hfs⟩
    · have hnext : ¬StandsUnquoted d (p ++ [c]) := by
        rw [standsUnquoted_concat_iff]
        exact not_or.mpr ⟨hp, hc⟩
      simpa using ih (p ++ [c]) hnext

theorem exists_hasFields_length_iff (hd : d ≠ '"') {k : ℕ} :
    (∃ fs, HasFields d l fs ∧ fs.length = k) ↔ fieldCount d l = k := by
  constructor
  · rintro ⟨fs, hfs, rfl⟩
    exact (hfs.length_eq hd).symm
  · rintro rfl
    obtain ⟨fs, hfs⟩ := exists_hasFields d l
    exact ⟨fs, hfs, hfs.length_eq hd⟩

/-! ## Scores that are reached -/

theorem sample_ne_nil (h : nonemptyLines s ≠ []) : sample s ≠ [] := by
  simpa [sample, sampleSize] using h

theorem score_eq_splitBonus_iff (hd : d ≠ '"') (h : sample s ≠ []) :
    score (sample s) d = splitBonus ↔ SplitsAlike s d := by
  rw [score, countsScore_eq_splitBonus_iff (by simpa using h), SplitsAlike]
  simp only [List.forall_mem_map, exists_hasFields_length_iff hd]

/-- Without a named delimiter the first candidate that splits all lines alike is taken, and the
comma if no candidate stands outside quotes. -/
theorem isFirst_delimiterOf (h : separatorHint? (firstLine s) = none)
    (hlines : nonemptyLines s ≠ []) :
    ((∃ d ∈ delimiters, SplitsAlike s d) →
      ∃ as bs, delimiters = as ++ delimiterOf s :: bs ∧ SplitsAlike s (delimiterOf s) ∧
        ∀ c ∈ as, ¬SplitsAlike s c) ∧
    ((∀ d ∈ delimiters, ∀ l ∈ sample s, ¬StandsUnquoted d l) → delimiterOf s = ',') := by
  have hbest := isFirstBest_delimiterOf h
  have hsample := sample_ne_nil hlines
  have hscore : ∀ d ∈ delimiters, score (sample s) d = splitBonus ↔ SplitsAlike s d :=
    fun d hd => score_eq_splitBonus_iff (ne_quote_of_mem_delimiters hd) hsample
  constructor
  · rintro ⟨d, hd, halike⟩
    obtain ⟨as, bs, hsplit, hreached, hfront⟩ := hbest.exists_first
      (fun c _ => countsScore_le _) ⟨d, hd, (hscore d hd).mpr halike⟩
    refine ⟨as, bs, hsplit, (hscore _ (hsplit ▸ by simp)).mp hreached, fun c hc halike => ?_⟩
    exact hfront c hc ((hscore c (hsplit ▸ List.mem_append_left _ hc)).mpr halike)
  · intro hunsplit
    refine hbest.eq_head (m := -splitBonus) fun d hd => ?_
    exact score_of_forall_fieldCount hsample (k := 1) fun l hl =>
      fieldCount_of_not_standsUnquoted (ne_quote_of_mem_delimiters hd) (hunsplit d hd l hl)

theorem isFirst_delimiterOf_quotes :
    (∃ as bs, delimiters = as ++ delimiterOf "\"a,b\";c|d\n\"e\"\"\";f".toList :: bs ∧
      SplitsAlike "\"a,b\";c|d\n\"e\"\"\";f".toList
        (delimiterOf "\"a,b\";c|d\n\"e\"\"\";f".toList) ∧
      ∀ c ∈ as, ¬SplitsAlike "\"a,b\";c|d\n\"e\"\"\";f".toList c) ∧
    delimiterOf "\";\"\r\na".toList = ',' := by
  have hfields : ((sample "\"a,b\";c|d\n\"e\"\"\";f".toList).all fun l =>
      fieldCount ';' l == 2) = true := by decide +kernel
  have hunsplit : (delimiters.all fun d => (sample "\";\"\r\na".toList).all fun l =>
      delimiterCount d false l == 0) = true := by decide +kernel
  constructor
  · refine (isFirst_delimiterOf (by decide +kernel) (by decide +kernel)).1
      ⟨';', by decide, 2, by decide, fun l hl => ?_⟩
    have hl := List.all_eq_true.mp hfields l hl
    exact (exists_hasFields_length_iff (by decide)).mpr (by simpa using hl)
  · refine (isFirst_delimiterOf (by decide +kernel) (by decide +kernel)).2 fun d hd l hl => ?_
    have hl := List.all_eq_true.mp (List.all_eq_true.mp hunsplit d hd) l hl
    exact (delimiterCount_false_eq_zero_iff (ne_quote_of_mem_delimiters hd)).mp (by simpa using hl)

end Salvage.Csv
