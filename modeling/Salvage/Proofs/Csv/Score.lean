import Mathlib.Data.Finset.Max
import Salvage.Csv.Delimiter

/-! # Scores of delimiters

The mode of field counts is one of them, so counts that agree are their own mode and stray
from it by nothing. A delimiter that scores above all others is the one that is suggested.
-/

namespace Salvage.Csv

variable {ns : List Nat} {m n k : Nat}

theorem exists_most_frequent (h : ns ≠ []) : ∃ n ∈ ns, ∀ k ∈ ns, ns.count k ≤ ns.count n := by
  have hne : ns.toFinset.Nonempty := by
    obtain ⟨n, hn⟩ := List.exists_mem_of_ne_nil ns h
    exact ⟨n, List.mem_toFinset.mpr hn⟩
  obtain ⟨n, hn, hmax⟩ := ns.toFinset.exists_max_image ns.count hne
  exact ⟨n, List.mem_toFinset.mp hn, fun k hk => hmax k (List.mem_toFinset.mpr hk)⟩

theorem mem_mostFrequent_iff :
    n ∈ mostFrequent ns ↔ n ∈ ns ∧ ∀ k ∈ ns, ns.count k ≤ ns.count n := by
  simp [mostFrequent]

theorem mem_of_nearest (h : nearest m ns = some n) : n ∈ ns := by
  cases ns with
  | nil => simp [nearest] at h
  | cons a ns =>
    obtain rfl := Option.some.inj h
    clear h
    induction ns generalizing a with
    | nil => exact List.mem_singleton_self a
    | cons b ns ih =>
      rw [List.foldl_cons]
      rcases List.mem_cons.mp (ih (if nearer m b a then b else a)) with h | h
      · rw [h]
        split <;> simp
      · exact List.mem_cons_of_mem a (List.mem_cons_of_mem b h)

theorem exists_nearest (m : Nat) (h : ns ≠ []) : ∃ n, nearest m ns = some n := by
  cases ns with
  | nil => exact absurd rfl h
  | cons a ns => exact ⟨_, rfl⟩

/-- The mode is one of the numbers, and none of them is more frequent. -/
theorem mode_mem_mostFrequent (h : ns ≠ []) : mode ns ∈ mostFrequent ns := by
  obtain ⟨a, ha, hmax⟩ := exists_most_frequent h
  have hne : mostFrequent ns ≠ [] := List.ne_nil_of_mem (mem_mostFrequent_iff.mpr ⟨ha, hmax⟩)
  obtain ⟨n, hn⟩ := exists_nearest (upperMedian ns) hne
  have hmode : mode ns = n := by rw [mode, hn, Option.getD_some]
  exact hmode ▸ mem_of_nearest hn

theorem mode_eq_of_mostFrequent (h : ns ≠ []) (hk : ∀ n ∈ mostFrequent ns, n = k) : mode ns = k :=
  hk _ (mode_mem_mostFrequent h)

theorem mode_mem (h : ns ≠ []) : mode ns ∈ ns :=
  (mem_mostFrequent_iff.mp (mode_mem_mostFrequent h)).1

theorem distance_eq_zero_iff : distance n k = 0 ↔ n = k := by
  rw [distance]
  omega

/-- Only numbers that all agree have no distance in total. -/
theorem sum_distance_eq_zero_iff :
    (ns.map (distance · k)).foldr (· + ·) 0 = 0 ↔ ∀ n ∈ ns, n = k := by
  induction ns with
  | nil => simp
  | cons n ns ih =>
    rw [List.map_cons, List.foldr_cons, Nat.add_eq_zero_iff, ih, distance_eq_zero_iff,
      List.forall_mem_cons]

theorem spread_eq_zero_iff : spread ns = 0 ↔ ∀ n ∈ ns, n = mode ns := sum_distance_eq_zero_iff

theorem mode_spread_of_forall_eq (h : ns ≠ []) (hk : ∀ n ∈ ns, n = k) :
    mode ns = k ∧ spread ns = 0 := by
  have hmode : mode ns = k := hk _ (mode_mem h)
  exact ⟨hmode, spread_eq_zero_iff.mpr (hmode ▸ hk)⟩

theorem countsScore_of_forall_eq (h : ns ≠ []) (hk : ∀ n ∈ ns, n = k) :
    countsScore ns = if 1 < k then splitBonus else -splitBonus := by
  obtain ⟨hmode, hspread⟩ := mode_spread_of_forall_eq h hk
  simp [countsScore, hmode, hspread]

theorem countsScore_le (ns : List Nat) : countsScore ns ≤ splitBonus := by
  rw [countsScore, splitBonus]
  split <;> omega

/-- The whole bonus goes to counts that agree on more than one field, and to no others. -/
theorem countsScore_eq_splitBonus_iff (h : ns ≠ []) :
    countsScore ns = splitBonus ↔ ∃ k, 1 < k ∧ ∀ n ∈ ns, n = k := by
  constructor
  · intro hscore
    have hparts : 1 < mode ns ∧ spread ns = 0 := by
      rw [countsScore, splitBonus] at hscore
      split at hscore <;> omega
    exact ⟨mode ns, hparts.1, spread_eq_zero_iff.mp hparts.2⟩
  · rintro ⟨k, hk, hns⟩
    rw [countsScore_of_forall_eq h hns, if_pos hk]

section

variable {lines : List (List Char)} {d e : Char}

theorem score_of_forall_fieldCount (h : lines ≠ []) (hk : ∀ l ∈ lines, fieldCount d l = k) :
    score lines d = if 1 < k then splitBonus else -splitBonus :=
  countsScore_of_forall_eq (by simpa using h) (by simpa using hk)

/-- The delimiter is the first of those with the highest score. -/
def IsFirstBest (lines : List (List Char)) (ds : List Char) (d : Char) : Prop :=
  ∃ as bs, ds = as ++ d :: bs ∧ (∀ c ∈ as, score lines c < score lines d) ∧
    ∀ c ∈ bs, score lines c ≤ score lines d

namespace IsFirstBest

variable {ds : List Char}

theorem mem (h : IsFirstBest lines ds d) : d ∈ ds := by
  obtain ⟨as, bs, rfl, -, -⟩ := h
  exact List.mem_append_right as List.mem_cons_self

/-- Lines that give all delimiters the same scores have the same best one. -/
theorem congr {lines' : List (List Char)} (h : IsFirstBest lines ds d)
    (hscore : ∀ c ∈ ds, score lines c = score lines' c) : IsFirstBest lines' ds d := by
  obtain ⟨as, bs, rfl, has, hbs⟩ := h
  have hd := hscore d (by simp)
  refine ⟨as, bs, rfl, fun c hc => ?_, fun c hc => ?_⟩
  · rw [← hd, ← hscore c (by simp [hc])]
    exact has c hc
  · rw [← hd, ← hscore c (by simp [hc])]
    exact hbs c hc

theorem score_le (h : IsFirstBest lines ds d) : ∀ c ∈ ds, score lines c ≤ score lines d := by
  obtain ⟨as, bs, rfl, has, hbs⟩ := h
  intro c hc
  rcases List.mem_append.mp hc with hc | hc
  · exact Int.le_of_lt (has c hc)
  rcases List.mem_cons.mp hc with rfl | hc
  · exact Int.le_refl _
  · exact hbs c hc

/-- A score that none is above is that of the best delimiter if it is one at all, and no
delimiter in front of it has that score. -/
theorem exists_first (h : IsFirstBest lines ds d) {m : Int} (hle : ∀ c ∈ ds, score lines c ≤ m)
    (hm : ∃ c ∈ ds, score lines c = m) :
    ∃ as bs, ds = as ++ d :: bs ∧ score lines d = m ∧ ∀ c ∈ as, score lines c ≠ m := by
  have hmax := h.score_le
  obtain ⟨as, bs, rfl, has, -⟩ := h
  obtain ⟨c, hc, hcm⟩ := hm
  have hd : score lines d = m := le_antisymm (hle d (by simp)) (hcm ▸ hmax c hc)
  exact ⟨as, bs, rfl, hd, fun c hc => (hd ▸ has c hc).ne⟩

/-- Of delimiters that all score alike the first one is the best. -/
theorem eq_head {m : Int} (h : IsFirstBest lines (e :: ds) d)
    (hm : ∀ c ∈ e :: ds, score lines c = m) : d = e := by
  obtain ⟨as, bs, hsplit, -, hfront⟩ :=
    h.exists_first (fun c hc => (hm c hc).le) ⟨e, List.mem_cons_self, hm e List.mem_cons_self⟩
  cases as with
  | nil => exact (List.cons.inj hsplit).1.symm
  | cons a as =>
    obtain ⟨rfl, -⟩ := List.cons.inj hsplit
    exact absurd (hm e List.mem_cons_self) (hfront e List.mem_cons_self)

theorem cons (h : IsFirstBest lines ds d) (he : score lines e < score lines d) :
    IsFirstBest lines (e :: ds) d := by
  obtain ⟨as, bs, rfl, has, hbs⟩ := h
  exact ⟨e :: as, bs, rfl, List.forall_mem_cons.mpr ⟨he, has⟩, hbs⟩

/-- A delimiter that does not score above the first one changes nothing behind it. -/
theorem cons_cons (h : IsFirstBest lines (e :: ds) d) {b : Char}
    (hb : score lines b ≤ score lines e) : IsFirstBest lines (e :: b :: ds) d := by
  obtain ⟨as, bs, hsplit, has, hbs⟩ := h
  obtain _ | ⟨a, as⟩ := as
  · obtain ⟨rfl, rfl⟩ := List.cons.inj hsplit
    exact ⟨[], b :: ds, rfl, by simp, List.forall_mem_cons.mpr ⟨hb, hbs⟩⟩
  · obtain ⟨rfl, rfl⟩ := List.cons.inj hsplit
    obtain ⟨he, has⟩ := List.forall_mem_cons.mp has
    exact ⟨e :: b :: as, bs, rfl,
      List.forall_mem_cons.mpr ⟨he, List.forall_mem_cons.mpr ⟨by omega, has⟩⟩, hbs⟩

end IsFirstBest

theorem isFirstBest_foldl (ds : List Char) (e : Char) :
    IsFirstBest lines (e :: ds) (ds.foldl (better lines) e) := by
  induction ds generalizing e with
  | nil => exact ⟨[], [], rfl, by simp, by simp⟩
  | cons b ds ih =>
    rw [List.foldl_cons, better]
    split
    · have hbest := ih b
      have hb := hbest.score_le b List.mem_cons_self
      exact hbest.cons (by omega)
    · exact (ih e).cons_cons (by omega)

theorem foldl_better_eq_self {ds : List Char} (h : ∀ c ∈ ds, score lines c ≤ score lines d) :
    ds.foldl (better lines) d = d := by
  induction ds with
  | nil => rfl
  | cons e ds ih =>
    obtain ⟨he, hds⟩ := List.forall_mem_cons.mp h
    rw [List.foldl_cons, better, if_neg (by omega), ih hds]

theorem bestDelimiter_eq_some_iff {ds : List Char} :
    bestDelimiter lines ds = some d ↔ IsFirstBest lines ds d := by
  constructor
  · intro h
    cases ds with
    | nil => simp [bestDelimiter] at h
    | cons e ds =>
      obtain rfl := Option.some.inj h
      exact isFirstBest_foldl ds e
  · rintro ⟨as, bs, rfl, has, hbs⟩
    cases as with
    | nil => rw [List.nil_append, bestDelimiter, foldl_better_eq_self hbs]
    | cons a as =>
      have hfront : score lines (as.foldl (better lines) a) < score lines d := by
        obtain ⟨as', bs', hsplit, -⟩ : IsFirstBest lines (a :: as) _ := isFirstBest_foldl as a
        exact has _ (hsplit ▸ by simp)
      rw [List.cons_append, bestDelimiter, List.foldl_append, List.foldl_cons, better,
        if_pos hfront, foldl_better_eq_self hbs]

/-- The one delimiter that scores above all others is the best. -/
theorem bestDelimiter_eq_some {ds : List Char} (hd : d ∈ ds)
    (h : ∀ c ∈ ds, c ≠ d → score lines c < score lines d) : bestDelimiter lines ds = some d := by
  obtain ⟨as, bs, rfl, hfirst⟩ := List.eq_append_cons_of_mem hd
  refine bestDelimiter_eq_some_iff.mpr ⟨as, bs, rfl, fun c hc => ?_, fun c hc => ?_⟩
  · refine h c (List.mem_append_left _ hc) ?_
    rintro rfl
    exact hfirst hc
  · by_cases hcd : c = d
    · rw [hcd]
    · exact Int.le_of_lt (h c (by simp [hc]) hcd)

/-- Without a named delimiter the best of the candidates is taken. -/
theorem bestDelimiter_sample (s : List Char) :
    bestDelimiter (sample s) delimiters = some (suggestedDelimiter s) := by
  rw [suggestedDelimiter]
  split
  · rename_i hempty
    rw [List.isEmpty_iff.mp hempty]
    decide
  · rw [delimiters, bestDelimiter, Option.getD_some]

theorem isFirstBest_suggestedDelimiter (s : List Char) :
    IsFirstBest (sample s) delimiters (suggestedDelimiter s) :=
  bestDelimiter_eq_some_iff.mp (bestDelimiter_sample s)

theorem suggestedDelimiter_congr {s t : List Char}
    (h : ∀ c ∈ delimiters, score (sample s) c = score (sample t) c) :
    suggestedDelimiter s = suggestedDelimiter t := by
  have hbest := bestDelimiter_eq_some_iff.mpr ((isFirstBest_suggestedDelimiter s).congr h)
  rw [bestDelimiter_sample t] at hbest
  exact (Option.some.inj hbest).symm

end

end Salvage.Csv
