import Salvage.Proofs.Csv.Candidates
import Salvage.Proofs.Csv.Isolation
import Salvage.Proofs.Text.Word

/-! # The byte order mark

A byte order mark is dropped before a table is read, but it stays in a text whose delimiter is
asked for. There it hides a first line that names the delimiter, and on an empty first line it
is a line of its own. In no other text does it change the delimiter. Another delimiter changes
the rows just if one of the two splits a row.
-/

namespace Salvage.Csv

open Text

variable {d e : Char} {s t u v w : List Char}

/-! ## Rows under two delimiters -/

theorem exists_rows_of_ne_nil {f : Field} (hf : field d s = (f, t)) (hne : f.text ≠ []) :
    ∃ r rs, rows d s = (String.ofList f.text :: r) :: rs := by
  obtain ⟨r, rs, hr⟩ := exists_records_cons hf
  have hblank : isBlankRecord (f :: r) = false := by
    have hf : f ≠ ⟨[], false⟩ := by
      rintro rfl
      exact hne rfl
    simp [isBlankRecord, hf]
  rw [rows_eq_flatMap, hr, List.flatMap_cons, rowsOf, hblank]
  exact ⟨_, _, rfl⟩

theorem exists_rows_of_delimiter {f : Field} (hf : field d s = (f, d :: t)) :
    ∃ g r rs, rows d s = (String.ofList f.text :: g :: r) :: rs := by
  obtain ⟨r, rs, hr⟩ := exists_records_cons (s := t) (Prod.eta _).symm
  have hblank : isBlankRecord (f :: (field d t).1 :: r) = false := by simp [isBlankRecord]
  rw [rows_eq_flatMap, records_of_field_cons hf, if_pos rfl, hr, consField, List.flatMap_cons,
    rowsOf, hblank]
  exact ⟨_, _, _, rfl⟩

theorem length_of_mem_rowsOf_singleton (f : Field) : ∀ r ∈ rowsOf [f], r.length = 1 := by
  rw [rowsOf]
  split <;> simp [rowOf]

/-- The first field is a quoted part, if there is one, and the content behind it. -/
theorem exists_field_eq (s : List Char) :
    ∃ (i t : List Char) (q : Bool),
      ∀ d, field d s = (⟨i ++ t.takeWhile (isContent d), q⟩, t.dropWhile (isContent d)) := by
  cases s with
  | nil => exact ⟨[], [], false, fun d => rfl⟩
  | cons c r =>
    by_cases hc : c = '"'
    · exact ⟨(quotedPart r).1, (quotedPart r).2, true, fun d => by simp [field, hc]⟩
    · exact ⟨[], c :: r, false, fun d => by simp [field, hc]⟩

/-- Where one delimiter ends the first field and is content under the other one, the rows
differ. -/
theorem rows_ne_of_content {i v w : List Char} {q : Bool} {c : Char}
    (hfield : ∀ d, field d s =
      (⟨i ++ (w ++ c :: v).takeWhile (isContent d), q⟩, (w ++ c :: v).dropWhile (isContent d)))
    (hd : ∀ x ∈ w, isContent d x = true) (he : ∀ x ∈ w, isContent e x = true)
    (hcd : isContent d c = false) (hce : isContent e c = true) :
    rows d s ≠ rows e s ∧ ¬∀ r ∈ rows d s, r.length = 1 := by
  obtain rfl : c = d := by
    by_contra hne
    simp [isContent, hne] at hcd hce
    simp [hcd] at hce
  have hf : field c s = (⟨i ++ w, q⟩, c :: v) := by
    rw [hfield, takeWhile_append_of_head? hd (by simp [hcd]),
      dropWhile_append_of_head? hd (by simp [hcd])]
  have hg : (field e s).1.text = i ++ (w ++ c :: v.takeWhile (isContent e)) := by
    rw [hfield, List.takeWhile_append_of_pos he, List.takeWhile_cons_of_pos hce]
  obtain ⟨x, r, rs, hr⟩ := exists_rows_of_delimiter hf
  obtain ⟨r', rs', hr'⟩ := exists_rows_of_ne_nil (Prod.eta (field e s)).symm (by simp [hg])
  rw [hr, hr', hg]
  have hlt : i ++ w ≠ i ++ (w ++ c :: v.takeWhile (isContent e)) := by simp
  refine ⟨fun h => hlt ?_, fun h => by simpa using h _ List.mem_cons_self⟩
  exact String.ofList_inj.mp (List.cons.inj (List.cons.inj h).1).1

theorem rows_of_field_nil {f : Field} (hf : field d s = (f, [])) : rows d s = rowsOf [f] := by
  rw [rows_eq_flatMap, records_of_field_nil hf, List.flatMap_singleton]

/-- A line end behind the first field ends the first record. -/
theorem rows_of_field_break {f : Field} {c : Char} (hf : field d s = (f, c :: t)) (hc : c ≠ d) :
    rows d s = rowsOf [f] ++ rows d (afterBreak c t) :=
  rows_of_records_cons (by rw [records_of_field_cons hf, if_neg hc])

/-- Under two delimiters the first field ends at the same line end, or one of them ends it and
splits a row. -/
theorem field_eq_or_rows_ne (hde : d ≠ e) (s : List Char) :
    (∃ f t, field d s = (f, t) ∧ field e s = (f, t) ∧ ∀ c ∈ t.head?, isLineBreak c = true) ∨
      rows d s ≠ rows e s ∧
        ¬((∀ r ∈ rows d s, r.length = 1) ∧ ∀ r ∈ rows e s, r.length = 1) := by
  obtain ⟨i, t, q, hfield⟩ := exists_field_eq s
  rcases takeWhile_eq_or (isContent d) (isContent e) t with ⟨htake, hdrop⟩ | ⟨w, c, v, rfl, hw, hc⟩
  · refine .inl ⟨_, _, hfield d, by rw [hfield e, htake, hdrop], fun c hc => ?_⟩
    have hstop := head?_dropWhile t c hc
    have hstop' := head?_dropWhile t c (hdrop ▸ hc)
    by_contra hbreak
    have hcd : c = d := by simpa [isContent, hbreak] using hstop
    have hce : c = e := by simpa [isContent, hbreak] using hstop'
    exact hde (hcd.symm.trans hce)
  · right
    cases hcd : isContent d c with
    | false =>
      have hce : isContent e c = true := by simpa [hcd] using hc
      obtain ⟨hrows, hlong⟩ := rows_ne_of_content hfield (fun x hx => (hw x hx).1)
        (fun x hx => (hw x hx).2) hcd hce
      exact ⟨hrows, fun h => hlong h.1⟩
    | true =>
      have hce : isContent e c = false := by simpa [hcd] using hc
      obtain ⟨hrows, hlong⟩ := rows_ne_of_content hfield (fun x hx => (hw x hx).2)
        (fun x hx => (hw x hx).1) hce hcd
      exact ⟨hrows.symm, fun h => hlong h.2⟩

/-- Two delimiters give the same rows of a text just if neither of them splits a row. -/
theorem rows_eq_rows_iff_of_ne (hd : isLineBreak d = false) (he : isLineBreak e = false)
    (hde : d ≠ e) (s : List Char) :
    rows d s = rows e s ↔ (∀ r ∈ rows d s, r.length = 1) ∧ ∀ r ∈ rows e s, r.length = 1 := by
  induction hn : s.length using Nat.strong_induction_on generalizing s with
  | h n ih =>
    subst hn
    rcases field_eq_or_rows_ne hde s with ⟨f, t, hfd, hfe, hbreak⟩ | ⟨hrows, hlong⟩
    · have hone := length_of_mem_rowsOf_singleton f
      cases t with
      | nil =>
        rw [rows_of_field_nil hfd, rows_of_field_nil hfe]
        exact iff_of_true rfl ⟨hone, hone⟩
      | cons c v =>
        have hne : ∀ {a}, isLineBreak a = false → c ≠ a := by
          rintro a ha rfl
          simp [hbreak c rfl] at ha
        have hlt : (afterBreak c v).length < s.length := by
          have hle := field_length_le d s
          have hle' := afterBreak_length_le c v
          rw [hfd, List.length_cons] at hle
          omega
        rw [rows_of_field_break hfd (hne hd), rows_of_field_break hfe (hne he),
          List.append_cancel_left_eq, ih _ hlt _ rfl, List.forall_mem_append,
          List.forall_mem_append, and_iff_right hone, and_iff_right hone]
    · exact iff_of_false hrows hlong

theorem rows_eq_rows_iff (hd : isLineBreak d = false) (he : isLineBreak e = false)
    (s : List Char) :
    rows d s = rows e s ↔ (∀ r ∈ rows e s ++ rows d s, r.length = 1) ∨ d = e := by
  by_cases hde : d = e
  · simp [hde]
  · rw [rows_eq_rows_iff_of_ne hd he hde, List.forall_mem_append, and_comm, or_iff_left hde]

/-! ## Delimiters of a marked text -/

theorem separatorHint?_byteOrderMark (l : List Char) : separatorHint? (byteOrderMark :: l) = none :=
  rfl

theorem delimiterOf_byteOrderMark (u : List Char) :
    delimiterOf (byteOrderMark :: u) = suggestedDelimiter (byteOrderMark :: u) := by
  have hline : firstLine (byteOrderMark :: u) = byteOrderMark :: firstLine u := rfl
  rw [delimiterOf, hline, separatorHint?_byteOrderMark, Option.getD_none]

theorem fieldCount_byteOrderMark (hd : d ∈ delimiters) (l : List Char) :
    fieldCount d (byteOrderMark :: l) = fieldCount d l := by
  have hmark : ∀ c ∈ [byteOrderMark], c ≠ '"' ∧ c ≠ d := by
    rintro c hc
    obtain rfl := List.mem_singleton.mp hc
    refine ⟨by decide, ?_⟩
    rintro rfl
    exact absurd hd (by decide)
  rw [fieldCount, fieldCount, ← delimiterCount_append hmark l, List.singleton_append]

/-- The mark is one more character of the first line, unless that line is empty. -/
theorem suggestedDelimiter_byteOrderMark (h : firstLine u ≠ []) :
    suggestedDelimiter (byteOrderMark :: u) = suggestedDelimiter u := by
  cases u with
  | nil => exact absurd rfl h
  | cons c u =>
    have hc : isLineBreak c = false := by
      by_contra hc
      simp [firstLine, hc] at h
    obtain ⟨l, ls, hlines⟩ := List.exists_cons_of_ne_nil (List.splitOnP_ne_nil isLineBreak u)
    have hsplit : (c :: u).splitOnP isLineBreak = (c :: l) :: ls := by
      rw [List.splitOnP_cons_eq_if_modifyHead, if_neg (by simp [hc]), hlines, List.modifyHead_cons]
    have hsample : sample (c :: u) = (c :: l) :: (ls.filter (!·.isEmpty)).take 49 := by
      rw [sample, nonemptyLines, hsplit]
      rfl
    have hmarked : sample (byteOrderMark :: c :: u) =
        (byteOrderMark :: c :: l) :: (ls.filter (!·.isEmpty)).take 49 := by
      rw [sample, nonemptyLines, List.splitOnP_cons_eq_if_modifyHead, if_neg (by decide), hsplit]
      rfl
    refine suggestedDelimiter_congr fun d hd => ?_
    rw [score, score, hsample, hmarked, List.map_cons, List.map_cons, fieldCount_byteOrderMark hd]

/-- A line cannot name a line break. -/
theorem isLineBreak_of_separatorHint? (h : separatorHint? (firstLine u) = some d) :
    isLineBreak d = false := by
  have hd : d ∈ firstLine u := by
    rw [separatorHint?] at h
    split at h
    · next c r hdrop =>
      obtain ⟨k, hk, -⟩ := dropWord?_sameLetter_eq_some_iff.mp hdrop
      have hc : c = d := by
        split at h
        · exact Option.some.inj h
        · cases h
      refine (List.dropWhile_sublist (· == ' ')).mem ?_
      rw [hk, hc]
      simp
    · cases h
  simpa using List.mem_takeWhile_imp hd

theorem isLineBreak_suggestedDelimiter (s : List Char) :
    isLineBreak (suggestedDelimiter s) = false :=
  isLineBreak_of_mem_delimiters (isFirstBest_suggestedDelimiter s).mem

/-! ## Tables of a marked text -/

/-- A line that names the delimiter is the delimiter's line, whichever is given. -/
theorem table_of_separatorHint? {c : Option Char}
    (h : separatorHint? (firstLine (dropByteOrderMark t)) = some d) :
    table c t = rows (c.getD d) (afterFirstLine (dropByteOrderMark t)) := by
  rw [table, takeHint, h]
  cases c <;> rfl

theorem table_of_separatorHint?_eq_none {c : Option Char}
    (h : separatorHint? (firstLine (dropByteOrderMark t)) = none) :
    table c t = rows (c.getD (delimiterOf (dropByteOrderMark t))) (dropByteOrderMark t) := by
  rw [table, takeHint, h]
  cases c <;> rfl

theorem table_delimiterOf_of_unmarked (hmark : t.head? ≠ some byteOrderMark) :
    table (some (delimiterOf t)) t = table none t := by
  have hdrop := dropByteOrderMark_eq_self hmark
  cases hhint : separatorHint? (firstLine t) with
  | some d =>
    have hself : delimiterOf t = d := by rw [delimiterOf, hhint, Option.getD_some]
    rw [table_of_separatorHint? (hdrop.symm ▸ hhint), table_of_separatorHint? (hdrop.symm ▸ hhint),
      hself]
    rfl
  | none =>
    rw [table_of_separatorHint?_eq_none (hdrop.symm ▸ hhint),
      table_of_separatorHint?_eq_none (hdrop.symm ▸ hhint), hdrop]
    rfl

/-- The delimiter of a text is the one that its table is read by, unless a byte order mark in
front hides a line that names another one, or is a line of its own. Then the tables agree just if
no row of them has several cells. -/
theorem table_delimiterOf_iff (t : List Char) :
    table (some (delimiterOf t)) t = table none t ↔ ∀ u, t = byteOrderMark :: u →
      (∀ r ∈ table none t ++ table (some (delimiterOf t)) t, r.length = 1) ∨
      (∀ d, separatorHint? (firstLine u) = some d → suggestedDelimiter t = d) ∧
      (separatorHint? (firstLine u) = none → firstLine u = [] →
        suggestedDelimiter t = suggestedDelimiter u) := by
  by_cases hmark : t.head? = some byteOrderMark
  · obtain ⟨u, rfl⟩ := List.head?_eq_some_iff.mp hmark
    have hdrop : dropByteOrderMark (byteOrderMark :: u) = u := rfl
    have hbreak := isLineBreak_suggestedDelimiter (byteOrderMark :: u)
    simp only [List.cons.injEq, true_and, forall_eq']
    rw [delimiterOf_byteOrderMark]
    cases hhint : separatorHint? (firstLine u) with
    | some d =>
      rw [table_of_separatorHint? (hdrop.symm ▸ hhint),
        table_of_separatorHint? (hdrop.symm ▸ hhint), Option.getD_some, Option.getD_none, hdrop,
        rows_eq_rows_iff hbreak (isLineBreak_of_separatorHint? hhint)]
      simp
    | none =>
      have hself : delimiterOf u = suggestedDelimiter u := by rw [delimiterOf, hhint]; rfl
      have hsame : (firstLine u = [] → suggestedDelimiter (byteOrderMark :: u) =
          suggestedDelimiter u) ↔ suggestedDelimiter (byteOrderMark :: u) = suggestedDelimiter u :=
        ⟨fun h => (em (firstLine u = [])).elim h suggestedDelimiter_byteOrderMark, fun h _ => h⟩
      rw [table_of_separatorHint?_eq_none (hdrop.symm ▸ hhint),
        table_of_separatorHint?_eq_none (hdrop.symm ▸ hhint), Option.getD_some, Option.getD_none,
        hdrop, hself, rows_eq_rows_iff hbreak (isLineBreak_suggestedDelimiter u)]
      simp [hsame]
  · exact iff_of_true (table_delimiterOf_of_unmarked hmark) fun u hu => absurd (hu ▸ rfl) hmark

/-- Behind a byte order mark a line that names the delimiter is overlooked. -/
theorem not_forall_table_delimiterOf_eq :
    ¬∀ t, table none t = table (some (delimiterOf t)) t := by
  intro h
  have hlines : (delimiters.all fun d => (sample "\uFEFFsep=#\na#b".toList).all fun l =>
      fieldCount d l == 1) = true := by decide +kernel
  have hcomma : delimiterOf "\uFEFFsep=#\na#b".toList = ',' := by
    rw [show "\uFEFFsep=#\na#b".toList = byteOrderMark :: "sep=#\na#b".toList from rfl,
      delimiterOf_byteOrderMark]
    refine (isFirstBest_suggestedDelimiter _).eq_head (m := -splitBonus) fun d hd => ?_
    refine score_of_forall_fieldCount (k := 1) (by decide +kernel) fun l hl => ?_
    have hl := List.all_eq_true.mp (List.all_eq_true.mp hlines d hd) l hl
    simpa using hl
  have hhint : separatorHint? (firstLine (dropByteOrderMark "\uFEFFsep=#\na#b".toList)) =
      some '#' := by decide +kernel
  have hrows := h "\uFEFFsep=#\na#b".toList
  rw [table_of_separatorHint? hhint, table_of_separatorHint? hhint, hcomma,
    rows_eq_rows_iff_of_ne (by decide) (by decide) (by decide)] at hrows
  obtain ⟨g, r, rs, hr⟩ := exists_rows_of_delimiter (d := '#') (s := ['a', '#', 'b'])
    (f := ⟨['a'], false⟩) (t := ['b']) (by decide)
  have hone := hrows.1 (String.ofList ['a'] :: g :: r)
    (show _ ∈ rows '#' ['a', '#', 'b'] from hr ▸ List.mem_cons_self)
  simp at hone

end Salvage.Csv
