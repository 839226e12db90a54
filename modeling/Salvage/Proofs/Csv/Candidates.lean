import Salvage.Proofs.Csv.Detection

/-! # Candidates of several columns

A candidate that splits most lines is ahead by twice the bonus, less what its field counts
stray from their mode. So one that splits most lines is taken just when one of them strays
less than that further than each candidate that does not, or as much further than those
behind it.
-/

namespace Salvage.Csv

open Text

/-- The number of fields that most sampled lines have. -/
def columnCount (s : List Char) (d : Char) : Nat := mode ((sample s).map (fieldCount d))

/-- How far the field counts of the sampled lines lie from their mode in total. -/
def deviation (s : List Char) (d : Char) : Int := spread ((sample s).map (fieldCount d))

variable {s : List Char} {c d : Char}

theorem score_sample (s : List Char) (d : Char) :
    score (sample s) d =
      (if 1 < columnCount s d then splitBonus else -splitBonus) - deviation s d :=
  rfl

/-- A candidate of several columns scores above one of a single column just when it strays
less than twice the bonus further. -/
theorem score_lt_score_iff (hd : 1 < columnCount s d) (hc : columnCount s c ≤ 1) :
    score (sample s) c < score (sample s) d ↔
      deviation s d < deviation s c + 2 * splitBonus := by
  rw [score_sample, score_sample, if_pos hd, if_neg (Nat.not_lt.mpr hc)]
  omega

theorem score_le_score_iff (hd : 1 < columnCount s d) (hc : columnCount s c ≤ 1) :
    score (sample s) c ≤ score (sample s) d ↔
      deviation s d ≤ deviation s c + 2 * splitBonus := by
  rw [score_sample, score_sample, if_pos hd, if_neg (Nat.not_lt.mpr hc)]
  omega

theorem deviation_nonneg (s : List Char) (d : Char) : 0 ≤ deviation s d := Int.natCast_nonneg _

/-- Lines that agree have their own number of columns and stray from it by nothing. -/
theorem columnCount_deviation_of_replicate {n k : Nat} (hn : n ≠ 0)
    (h : (sample s).map (fieldCount d) = List.replicate n k) :
    columnCount s d = k ∧ deviation s d = 0 := by
  have hcounts : ∀ m ∈ List.replicate n k, m = k := fun m hm => List.eq_of_mem_replicate hm
  obtain ⟨hmode, hspread⟩ := mode_spread_of_forall_eq (by simpa using hn) hcounts
  exact ⟨by rw [columnCount, h, hmode], by rw [deviation, h, hspread]; rfl⟩

theorem isFirstBest_delimiterOf (h : separatorHint? (firstLine s) = none) :
    IsFirstBest (sample s) delimiters (delimiterOf s) := by
  rw [delimiterOf, h, Option.getD_none]
  exact bestDelimiter_eq_some_iff.mp (bestDelimiter_sample s)

/-- Of two elements of a list the one that stands behind the other has it in front. -/
theorem mem_of_append_cons_eq {α : Type} {as bs as' bs' : List α} {c d : α}
    (h : as ++ d :: bs = as' ++ c :: bs') (hc : c ∈ bs) (hnodup : (as ++ d :: bs).Nodup) :
    d ∈ as' := by
  obtain ⟨-, hbehind, hapart⟩ := List.nodup_append.mp hnodup
  have hdc : d ≠ c := by
    rintro rfl
    exact (List.nodup_cons.mp hbehind).1 hc
  rcases List.append_eq_append_iff.mp h with ⟨m, rfl, hm⟩ | ⟨m, rfl, hm⟩
  · obtain _ | ⟨x, m⟩ := m
    · exact absurd (List.cons.inj hm).1 hdc
    · obtain ⟨rfl, -⟩ := List.cons.inj hm
      simp
  · obtain _ | ⟨x, m⟩ := m
    · exact absurd (List.cons.inj hm).1.symm hdc
    · obtain ⟨rfl, -⟩ := List.cons.inj hm
      exact absurd rfl (hapart c (by simp) c (List.mem_cons_of_mem d hc))

/-- Without a named delimiter one of the candidates is taken. It is one of several columns
just when such a candidate strays less than twice the bonus further than each candidate of a
single column in front of it, and no more than that further than each one behind it. -/
theorem one_lt_columnCount_delimiterOf_iff (h : separatorHint? (firstLine s) = none) :
    delimiterOf s ∈ delimiters ∧ (1 < columnCount s (delimiterOf s) ↔
      ∃ as d bs, delimiters = as ++ d :: bs ∧ 1 < columnCount s d ∧
        (∀ c ∈ as, columnCount s c ≤ 1 → deviation s d < deviation s c + 2 * splitBonus) ∧
        ∀ c ∈ bs, columnCount s c ≤ 1 → deviation s d ≤ deviation s c + 2 * splitBonus) := by
  have hbest := isFirstBest_delimiterOf h
  have hmax := hbest.score_le
  obtain ⟨as', bs', hsplit', has', hbs'⟩ := hbest
  refine ⟨hsplit' ▸ by simp, ?_⟩
  constructor
  · intro hcount
    exact ⟨as', _, bs', hsplit', hcount,
      fun c hc hone => (score_lt_score_iff hcount hone).mp (has' c hc),
      fun c hc hone => (score_le_score_iff hcount hone).mp (hbs' c hc)⟩
  · rintro ⟨as, d, bs, hsplit, hd, has, hbs⟩
    by_contra hone
    have hone : columnCount s (delimiterOf s) ≤ 1 := Nat.not_lt.mp hone
    have hle : score (sample s) d ≤ score (sample s) (delimiterOf s) :=
      hmax d (hsplit ▸ by simp)
    have hmem : delimiterOf s ∈ as ++ d :: bs := hsplit ▸ hsplit' ▸ by simp
    rcases List.mem_append.mp hmem with hfront | hrest
    · have hlt := (score_lt_score_iff hd hone).mpr (has _ hfront hone)
      omega
    rcases List.mem_cons.mp hrest with hself | hbehind
    · rw [hself] at hone
      omega
    · -- The one that is taken stands behind `d`, and so scores above it.
      have hle' := (score_le_score_iff hd hone).mpr (hbs _ hbehind hone)
      have hlt := has' d (mem_of_append_cons_eq (hsplit ▸ hsplit') hbehind (hsplit ▸ by decide))
      omega

theorem one_lt_columnCount_delimiterOf_iff_semicolon :
    separatorHint? (firstLine "a;b,c\nd;e\nf;g".toList) = none ∧
      1 < columnCount "a;b,c\nd;e\nf;g".toList (delimiterOf "a;b,c\nd;e\nf;g".toList) := by
  have hhint : separatorHint? (firstLine "a;b,c\nd;e\nf;g".toList) = none := by decide +kernel
  obtain ⟨hcount, hdeviation⟩ := columnCount_deviation_of_replicate (n := 3) (k := 2) (d := ';')
    (s := "a;b,c\nd;e\nf;g".toList) (by simp) (by decide +kernel)
  have hpos : ∀ c, 0 ≤ deviation "a;b,c\nd;e\nf;g".toList c := deviation_nonneg _
  refine ⟨hhint, (one_lt_columnCount_delimiterOf_iff hhint).2.mpr
    ⟨[','], ';', ['\t', '|'], rfl, by omega, fun c _ _ => ?_, fun c _ _ => ?_⟩⟩
  all_goals
    have hc := hpos c
    rw [splitBonus]
    omega

theorem delimiterCount_replicate (hd : d ≠ '"') (n : ℕ) :
    delimiterCount d false (List.replicate n d) = n := by
  induction n with
  | zero => rfl
  | succ n ih => simp [List.replicate_succ, delimiterCount, hd, ih]

theorem fieldCount_eq_one (hs : ∀ c ∈ s, c ≠ '"' ∧ c ≠ d) : fieldCount d s = 1 := by
  rw [fieldCount, ← List.append_nil s, delimiterCount_append hs]
  rfl

/-- Two lines of two fields, and one with more fields than that by twice the bonus and one. -/
def unevenLines : List Char :=
  ['a', ',', 'b'] ++ '\n' :: (['c', ',', 'd'] ++ '\n' :: List.replicate 2002 ',')

theorem sample_unevenLines :
    sample unevenLines = [['a', ',', 'b'], ['c', ',', 'd'], List.replicate 2002 ','] := by
  have hwide : nonemptyLines (List.replicate 2002 ',') = [List.replicate 2002 ','] :=
    nonemptyLines_eq_singleton (List.ne_nil_of_length_pos (by rw [List.length_replicate]; omega))
      fun c hc => by rw [List.eq_of_mem_replicate hc]; rfl
  have hsecond := nonemptyLines_append (s := ['c', ',', 'd']) (by simp) (by simp [isLineBreak])
    .lineFeed (List.replicate 2002 ',')
  have hfirst := nonemptyLines_append (s := ['a', ',', 'b']) (by simp) (by simp [isLineBreak])
    .lineFeed (['c', ',', 'd'] ++ '\n' :: List.replicate 2002 ',')
  have hlines : nonemptyLines unevenLines = _ := hfirst.trans (congrArg _ hsecond)
  rw [sample, hlines, hwide]
  rfl

/-- One wide line sets a candidate of two columns behind those of one. -/
theorem not_forall_one_lt_columnCount :
    ¬∀ s, separatorHint? (firstLine s) = none → (∃ d ∈ delimiters, 1 < columnCount s d) →
      delimiterOf s ∈ delimiters ∧ 1 < columnCount s (delimiterOf s) := by
  intro h
  have hhint : separatorHint? (firstLine unevenLines) = none := by decide +kernel
  have hcounts : (sample unevenLines).map (fieldCount ',') = [2, 2, 2003] := by
    have hwide : fieldCount ',' (List.replicate 2002 ',') = 2003 := by
      rw [fieldCount, delimiterCount_replicate (by decide)]
    rw [sample_unevenLines, List.map_cons, List.map_cons, List.map_cons, hwide]
    rfl
  have hones : ∀ c ∈ [';', '\t', '|'],
      (sample unevenLines).map (fieldCount c) = List.replicate 3 1 := by
    intro c hc
    have hcomma : ',' ≠ c := by
      rintro rfl
      simp at hc
    have hwide : fieldCount c (List.replicate 2002 ',') = 1 := fieldCount_eq_one fun x hx => by
      rw [List.eq_of_mem_replicate hx]
      exact ⟨by decide, hcomma⟩
    rw [sample_unevenLines, List.map_cons, List.map_cons, List.map_cons, hwide]
    simp only [List.mem_cons, List.not_mem_nil, or_false] at hc
    rcases hc with rfl | rfl | rfl <;> rfl
  have hmode : mode [2, 2, 2003] = 2 := mode_eq_of_mostFrequent (by simp) (by decide)
  have hcomma : columnCount unevenLines ',' = 2 := by rw [columnCount, hcounts, hmode]
  have hwide : deviation unevenLines ',' = 2001 := by
    rw [deviation, hcounts, spread, hmode]
    rfl
  have hother : ∀ c ∈ [';', '\t', '|'],
      columnCount unevenLines c = 1 ∧ deviation unevenLines c = 0 := fun c hc =>
    columnCount_deviation_of_replicate (by simp) (hones c hc)
  obtain ⟨hmem, hcount⟩ := h unevenLines hhint ⟨',', by decide, by rw [hcomma]; decide⟩
  rcases List.mem_cons.mp hmem with hself | hrest
  · have hmax := (isFirstBest_delimiterOf hhint).score_le ';' (by decide)
    obtain ⟨hone, hzero⟩ := hother ';' (by decide)
    rw [hself, score_le_score_iff (by omega) (by omega), hwide, hzero, splitBonus] at hmax
    omega
  · have hone := (hother _ hrest).1
    omega

end Salvage.Csv
