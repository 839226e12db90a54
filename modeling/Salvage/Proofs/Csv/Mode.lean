import Mathlib.Data.List.Perm.Basic
import Salvage.Proofs.Csv.Score

/-! # The mode

Of the most frequent numbers of a list the mode is the one nearest to the upper median, and of
two that are as near the smaller one. No other number is that, and the order of the list does not
matter. So lines in another order have the same scores, and suggest the same delimiter.
-/

namespace Salvage.Csv

open Text

variable {ns ks : List ℕ} {rs : List (ℕ × ℕ)} {m n k : ℕ}

/-! ## The nearest number -/

/-- The first number is nearer to `m` than the second one, or as near and smaller. -/
def IsNearer (m a b : ℕ) : Prop :=
  (a - m : ℤ).natAbs < (b - m : ℤ).natAbs ∨ (a - m : ℤ).natAbs = (b - m : ℤ).natAbs ∧ a < b

theorem nearer_iff {a b : ℕ} : nearer m a b = true ↔ IsNearer m a b := by
  have hdistance : ∀ k, distance k m = (k - m : ℤ).natAbs := by
    intro k
    rw [distance]
    omega
  simp [nearer, IsNearer, hdistance]

namespace IsNearer

variable {a b c : ℕ}

theorem irrefl (m a : ℕ) : ¬IsNearer m a a := by
  unfold IsNearer
  omega

theorem asymm (h : IsNearer m a b) : ¬IsNearer m b a := by
  unfold IsNearer at *
  omega

theorem trichotomy (m a b : ℕ) : IsNearer m a b ∨ a = b ∨ IsNearer m b a := by
  unfold IsNearer
  omega

theorem not_trans (h : ¬IsNearer m a b) (h' : ¬IsNearer m b c) : ¬IsNearer m a c := by
  unfold IsNearer at *
  omega

/-- Of two numbers the one is kept that the other is not nearer than. -/
theorem not_kept (m a b : ℕ) :
    ¬IsNearer m a (if nearer m b a then b else a) ∧
      ¬IsNearer m b (if nearer m b a then b else a) := by
  split
  · rename_i hb
    exact ⟨(nearer_iff.mp hb).asymm, irrefl m b⟩
  · rename_i hb
    exact ⟨irrefl m a, mt nearer_iff.mpr hb⟩

end IsNearer

theorem not_isNearer_of_nearest (h : nearest m ns = some n) : ∀ k ∈ ns, ¬IsNearer m k n := by
  cases ns with
  | nil => simp
  | cons a ns =>
    obtain rfl := Option.some.inj h
    clear h
    induction ns generalizing a with
    | nil => simp [IsNearer.irrefl]
    | cons b ns ih =>
      rw [List.foldl_cons]
      obtain ⟨ha, hb⟩ := IsNearer.not_kept m a b
      obtain ⟨hkept, hns⟩ := List.forall_mem_cons.mp (ih (if nearer m b a then b else a))
      exact List.forall_mem_cons.mpr
        ⟨IsNearer.not_trans ha hkept, List.forall_mem_cons.mpr ⟨IsNearer.not_trans hb hkept, hns⟩⟩

theorem nearest_eq_some_iff : nearest m ns = some n ↔ n ∈ ns ∧ ∀ k ∈ ns, ¬IsNearer m k n := by
  constructor
  · exact fun h => ⟨mem_of_nearest h, not_isNearer_of_nearest h⟩
  · rintro ⟨hn, hmin⟩
    obtain ⟨r, hr⟩ := exists_nearest m (List.ne_nil_of_mem hn)
    have hnr := not_isNearer_of_nearest hr n hn
    have hrn := hmin r (mem_of_nearest hr)
    obtain rfl := ((IsNearer.trichotomy m n r).resolve_left hnr).resolve_right hrn
    exact hr

theorem nearest_congr (h : ∀ n, n ∈ ns ↔ n ∈ ks) : nearest m ns = nearest m ks := by
  ext n
  simp only [nearest_eq_some_iff, h]

/-! ## The mode -/

/-- The number stands in the middle of the sorted list, of two the upper one. -/
def IsUpperMedian (ns : List ℕ) (m : ℕ) : Prop :=
  ∃ sorted : List ℕ, sorted.Perm ns ∧ sorted.Pairwise (· ≤ ·) ∧ sorted[ns.length / 2]? = some m

/-- None of the numbers is more frequent than this one of them. Of those that are as frequent it
is the nearest to the upper median, and the smaller one of two that are as near. -/
structure IsMode (ns : List ℕ) (n : ℕ) : Prop where
  mem : n ∈ ns
  count_le : ∀ k ∈ ns, ns.count k ≤ ns.count n
  isNearer : ∃ m, IsUpperMedian ns m ∧
    ∀ k ∈ ns, ns.count k = ns.count n → k ≠ n → IsNearer m n k

theorem pairwise_le_mergeSort (ns : List ℕ) : ns.mergeSort.Pairwise (· ≤ ·) := by
  have hsorted := @List.pairwise_mergeSort ℕ (fun a b => decide (a ≤ b))
    (by simpa using fun a b c => Nat.le_trans) (by simpa using Nat.le_total) ns
  simpa using hsorted

theorem isUpperMedian_iff (h : ns ≠ []) : IsUpperMedian ns m ↔ upperMedian ns = m := by
  have hlength : ns.length / 2 < ns.mergeSort.length := by
    have hpos := List.length_pos_of_ne_nil h
    rw [List.length_mergeSort]
    omega
  have hmedian : ns.mergeSort[ns.length / 2]? = some (upperMedian ns) := by
    rw [upperMedian, List.getElem?_eq_getElem hlength, Option.getD_some]
  constructor
  · rintro ⟨sorted, hperm, hsorted, hm⟩
    have heq : sorted = ns.mergeSort := List.Perm.eq_of_pairwise
      (fun _ _ _ _ => Nat.le_antisymm) hsorted (pairwise_le_mergeSort ns)
      (hperm.trans (List.mergeSort_perm ns _).symm)
    rw [heq, hmedian] at hm
    exact Option.some.inj hm
  · rintro rfl
    exact ⟨ns.mergeSort, List.mergeSort_perm ns _, pairwise_le_mergeSort ns, hmedian⟩

theorem mode_eq_iff_nearest (h : ns ≠ []) :
    mode ns = n ↔ nearest (upperMedian ns) (mostFrequent ns) = some n := by
  obtain ⟨r, hr⟩ := exists_nearest (upperMedian ns) (List.ne_nil_of_mem (mode_mem_mostFrequent h))
  rw [mode, hr, Option.getD_some, Option.some.injEq]

/-- There is one mode of numbers, if there are any. -/
theorem mode_eq_iff (h : ns ≠ []) : mode ns = n ↔ IsMode ns n := by
  rw [mode_eq_iff_nearest h, nearest_eq_some_iff, mem_mostFrequent_iff]
  constructor
  · rintro ⟨⟨hn, hcount⟩, hmin⟩
    refine ⟨hn, hcount, _, (isUpperMedian_iff h).mpr rfl, fun k hk hkn hne => ?_⟩
    have hfrequent : k ∈ mostFrequent ns := mem_mostFrequent_iff.mpr ⟨hk, hkn ▸ hcount⟩
    rcases IsNearer.trichotomy (upperMedian ns) n k with hnear | rfl | hnear
    · exact hnear
    · exact absurd rfl hne
    · exact absurd hnear (hmin k hfrequent)
  · rintro ⟨hn, hcount, m, hm, hnear⟩
    obtain rfl := (isUpperMedian_iff h).mp hm
    refine ⟨⟨hn, hcount⟩, fun k hk => ?_⟩
    obtain ⟨hk, hkcount⟩ := mem_mostFrequent_iff.mp hk
    by_cases hkn : k = n
    · rw [hkn]
      exact IsNearer.irrefl _ n
    · exact (hnear k hk (le_antisymm (hcount k hk) (hkcount n hn)) hkn).asymm

/-! ## Runs -/

/-- One more number behind the runs of equal numbers, which come last run first. -/
def addToRuns : List (ℕ × ℕ) → ℕ → List (ℕ × ℕ)
  | [], n => [(n, 1)]
  | (v, f) :: rs, n => if v = n then (v, f + 1) :: rs else (n, 1) :: (v, f) :: rs

/-- The runs of equal numbers in a list, each with its length, the last one first. -/
def runs (ns : List ℕ) : List (ℕ × ℕ) := ns.foldl addToRuns []

/-- The numbers of the longest runs. -/
def longest (rs : List (ℕ × ℕ)) : List ℕ :=
  (rs.filter fun r => (rs.map Prod.snd).max? = some r.2).map Prod.fst

/-- The runs are those of all numbers, each of which has one. -/
structure HasRuns (ns : List ℕ) (rs : List (ℕ × ℕ)) : Prop where
  nodup : (rs.map Prod.fst).Nodup
  head_max : ∀ r ∈ rs.head?, ∀ k ∈ ns, k ≤ r.1
  mem_iff : ∀ v f, (v, f) ∈ rs ↔ v ∈ ns ∧ f = ns.count v

namespace HasRuns

theorem notMem_tail {v f : ℕ} (h : HasRuns ns ((v, f) :: rs)) (g : ℕ) : (v, g) ∉ rs := fun hg =>
  (List.nodup_cons.mp h.nodup).1 (List.mem_map.mpr ⟨(v, g), hg, rfl⟩)

/-- Another occurrence of the greatest number makes its run longer. -/
theorem lengthen {v f : ℕ} (h : HasRuns ns ((v, f) :: rs)) :
    HasRuns (ns ++ [v]) ((v, f + 1) :: rs) where
  nodup := h.nodup
  head_max := by
    have hmax := h.head_max (v, f) rfl
    simpa [or_imp, forall_and] using hmax
  mem_iff w g := by
    have hmem := h.mem_iff w g
    have hf := ((h.mem_iff v f).mp List.mem_cons_self).2
    by_cases hw : w = v
    · subst hw
      simp [h.notMem_tail, hf]
    · simpa [hw, Ne.symm hw] using hmem

/-- A number above all others has a run of its own. -/
theorem start (h : HasRuns ns rs) (hn : ∀ k ∈ ns, k ≤ n) (hmem : n ∉ ns) :
    HasRuns (ns ++ [n]) ((n, 1) :: rs) where
  nodup := by
    refine List.nodup_cons.mpr ⟨fun hkey => hmem ?_, h.nodup⟩
    obtain ⟨⟨v, f⟩, hr, rfl⟩ := List.mem_map.mp hkey
    exact ((h.mem_iff v f).mp hr).1
  head_max := by simpa [or_imp, forall_and] using hn
  mem_iff w g := by
    have hiff := h.mem_iff w g
    by_cases hw : w = n
    · subst hw
      simp [hiff, hmem, List.count_eq_zero.mpr hmem]
    · simpa [hw, Ne.symm hw] using hiff

theorem addToRuns (h : HasRuns ns rs) (hn : ∀ k ∈ ns, k ≤ n) :
    HasRuns (ns ++ [n]) (addToRuns rs n) := by
  cases rs with
  | nil =>
    refine h.start hn fun hmem => ?_
    simpa using (h.mem_iff n (ns.count n)).mpr ⟨hmem, rfl⟩
  | cons r rs =>
    obtain ⟨v, f⟩ := r
    rw [Csv.addToRuns]
    split
    · rename_i hv
      exact hv ▸ h.lengthen
    · rename_i hv
      -- The last run is that of the greatest number, so the new one has none.
      refine h.start hn fun hmem => hv ?_
      have hle := hn v ((h.mem_iff v f).mp List.mem_cons_self).1
      exact le_antisymm hle (h.head_max (v, f) rfl n hmem)

end HasRuns

theorem hasRuns_runs (h : ns.Pairwise (· ≤ ·)) : HasRuns ns (runs ns) := by
  induction ns using List.reverseRecOn with
  | nil => exact ⟨List.nodup_nil, by simp [runs], by simp [runs]⟩
  | append_singleton ns n ih =>
    obtain ⟨hns, -, hn⟩ := List.pairwise_append.mp h
    rw [runs, List.foldl_append]
    exact (ih hns).addToRuns fun k hk => hn k hk n (List.mem_singleton_self n)

theorem HasRuns.mem_lengths_iff (h : HasRuns ns rs) :
    k ∈ rs.map Prod.snd ↔ ∃ n ∈ ns, ns.count n = k := by
  simp [h.mem_iff, eq_comm]

theorem HasRuns.mem_longest_iff (h : HasRuns ns rs) : n ∈ longest rs ↔ n ∈ mostFrequent ns := by
  have hlongest : n ∈ longest rs ↔ n ∈ ns ∧ (rs.map Prod.snd).max? = some (ns.count n) := by
    simp [longest, h.mem_iff]
  rw [hlongest, mem_mostFrequent_iff, List.max?_eq_some_iff]
  simp only [h.mem_lengths_iff]
  refine and_congr_right fun hn => ?_
  constructor
  · rintro ⟨-, hmax⟩ k hk
    exact hmax _ ⟨k, hk, rfl⟩
  · intro hmax
    refine ⟨⟨n, hn, rfl⟩, ?_⟩
    rintro _ ⟨k, hk, rfl⟩
    exact hmax k hk

/-- The runs of the sorted list give the mode. -/
theorem mode_eq_longest (ns : List ℕ) :
    mode ns = (nearest (upperMedian ns) (longest (runs ns.mergeSort))).getD 1 := by
  have hperm := List.mergeSort_perm ns (fun a b => decide (a ≤ b))
  have hruns := hasRuns_runs (pairwise_le_mergeSort ns)
  rw [mode]
  congr 1
  refine nearest_congr fun n => ?_
  rw [hruns.mem_longest_iff, mem_mostFrequent_iff, mem_mostFrequent_iff]
  simp [hperm.count_eq]

/-! ## The order of lines -/

theorem IsUpperMedian.perm (hperm : ns.Perm ks) (h : IsUpperMedian ns m) : IsUpperMedian ks m := by
  obtain ⟨sorted, hsorted, hle, hm⟩ := h
  exact ⟨sorted, hsorted.trans hperm, hle, hperm.length_eq ▸ hm⟩

theorem IsMode.perm (hperm : ns.Perm ks) (h : IsMode ns n) : IsMode ks n where
  mem := hperm.mem_iff.mp h.mem
  count_le := by
    intro k hk
    rw [← hperm.count_eq, ← hperm.count_eq]
    exact h.count_le k (hperm.mem_iff.mpr hk)
  isNearer := by
    obtain ⟨m, hm, hnear⟩ := h.isNearer
    refine ⟨m, hm.perm hperm, fun k hk hcount => ?_⟩
    rw [← hperm.count_eq, ← hperm.count_eq] at hcount
    exact hnear k (hperm.mem_iff.mpr hk) hcount

theorem mode_perm (hperm : ns.Perm ks) : mode ns = mode ks := by
  rcases eq_or_ne ns [] with rfl | h
  · rw [hperm.nil_eq]
  · have hk : ks ≠ [] := by
      rintro rfl
      exact h hperm.eq_nil
    have hmode : IsMode ns (mode ns) := (mode_eq_iff h).mp rfl
    exact ((mode_eq_iff hk).mpr (hmode.perm hperm)).symm

theorem countsScore_perm (hperm : ns.Perm ks) : countsScore ns = countsScore ks := by
  have hspread : spread ns = spread ks := by
    rw [spread, spread, mode_perm hperm]
    exact (hperm.map _).foldr_eq 0
  rw [countsScore, countsScore, mode_perm hperm, hspread]

theorem score_perm {lines lines' : List (List Char)} (hperm : lines.Perm lines') (d : Char) :
    score lines d = score lines' d :=
  countsScore_perm (hperm.map (fieldCount d))

theorem sample_eq {s : List Char} (h : (nonemptyLines s).length ≤ sampleSize) :
    sample s = nonemptyLines s :=
  List.take_of_length_le h

theorem suggestedDelimiter_perm {s t : List Char}
    (hperm : (nonemptyLines s).Perm (nonemptyLines t))
    (hlength : (nonemptyLines s).length ≤ sampleSize) :
    suggestedDelimiter s = suggestedDelimiter t := by
  apply suggestedDelimiter_congr
  intro d _
  rw [sample_eq hlength, sample_eq (hperm.length_eq ▸ hlength)]
  exact score_perm hperm d

/-- The mode is the one number that it should be, and the longest runs of the sorted list give it.
Lines in another order have the same scores, and suggest the same delimiter if all of them are
looked at and none in front names one. -/
theorem mode_and_delimiterOf_perm :
    (∀ ns : List ℕ, ns ≠ [] → ∀ n, mode ns = n ↔ IsMode ns n) ∧
    (∀ ns, mode ns = (nearest (upperMedian ns) (longest (runs ns.mergeSort))).getD 1) ∧
    (∀ lines lines' d, lines.Perm lines' → score lines d = score lines' d) ∧
    ∀ s t, (nonemptyLines s).Perm (nonemptyLines t) → (nonemptyLines s).length ≤ sampleSize →
      separatorHint? (firstLine s) = none → separatorHint? (firstLine t) = none →
      delimiterOf s = delimiterOf t := by
  refine ⟨fun ns h n => mode_eq_iff h, mode_eq_longest, fun _ _ d hperm => score_perm hperm d, ?_⟩
  intro s t hperm hlength hs ht
  rw [delimiterOf, delimiterOf, hs, ht, suggestedDelimiter_perm hperm hlength]

theorem mode_and_delimiterOf_perm_tie :
    mode [1, 4, 1, 4] = 4 ∧
      delimiterOf "a;b\n\nc|d\r\ne;f".toList = delimiterOf "c|d\re;f\na;b\n".toList := by
  have hmode : IsMode [1, 4, 1, 4] 4 :=
    ⟨by decide, by decide, 4, ⟨[1, 1, 4, 4], by decide, by decide, rfl⟩, by simp [IsNearer]⟩
  obtain ⟨hiff, -, -, hdelimiter⟩ := mode_and_delimiterOf_perm
  exact ⟨(hiff _ (by simp) 4).mpr hmode, hdelimiter _ _ (by decide +kernel) (by decide +kernel)
    (by decide +kernel) (by decide +kernel)⟩

end Salvage.Csv
