import Salvage.Proofs.Csv.Score
import Salvage.Proofs.Csv.Written

/-! # Detecting the delimiter of a written table

Where no candidate stands without quotes inside a field, each line of a written table
holds one delimiter less than its record has fields, and no rival outside quotes. So the
delimiter of a table with several columns scores above every rival.
-/

namespace Salvage.Csv

open Text

/-- The text holds no quote and none of the delimiters that are tried. -/
def IsPlain (s : List Char) : Prop := ∀ c ∈ s, c ≠ '"' ∧ c ∉ delimiters

/-- No field of the record breaks the line. -/
def OnOneLine (r : Record) : Prop := ∀ f ∈ r, ∀ c ∈ f.text, isLineBreak c = false

theorem quote_notMem_delimiters : '"' ∉ delimiters := by decide

theorem isLineBreak_of_mem_delimiters {d : Char} (h : d ∈ delimiters) : isLineBreak d = false := by
  simp only [delimiters, List.mem_cons, List.not_mem_nil, or_false] at h
  rcases h with rfl | rfl | rfl | rfl <;> rfl

theorem ne_quote_of_mem_delimiters {d : Char} (h : d ∈ delimiters) : d ≠ '"' := by
  rintro rfl
  exact quote_notMem_delimiters h

theorem IsPlain.isBare {d : Char} {s : List Char} (h : IsPlain s) (hd : d ∈ delimiters)
    (hs : ∀ c ∈ s, isLineBreak c = false) : IsBare d s := by
  constructor
  · intro c hc
    have hne : c ≠ d := by
      rintro rfl
      exact (h c hc).2 hd
    simp [isContent, hne, hs c hc]
  · intro hhead
    exact (h '"' (List.mem_of_mem_head? hhead)).1 rfl

/-! ## Counting delimiters -/

section

variable {d e : Char}

theorem delimiterCount_doubled (e : Char) (s t : List Char) :
    delimiterCount e true (doubled s ++ '"' :: t) = delimiterCount e false t := by
  induction s with
  | nil => simp [delimiterCount]
  | cons c s ih =>
    rw [doubled_cons]
    by_cases hc : c = '"'
    · subst hc
      simp [delimiterCount, ih]
    · simp [delimiterCount, hc, ih]

theorem delimiterCount_append (hs : ∀ c ∈ s, c ≠ '"' ∧ c ≠ e) (t : List Char) :
    delimiterCount e false (s ++ t) = delimiterCount e false t := by
  induction s with
  | nil => rfl
  | cons c s ih =>
    obtain ⟨hq, hne⟩ := hs c List.mem_cons_self
    rw [List.cons_append, delimiterCount, if_neg hq, if_neg fun h => hne h.1]
    exact ih fun c' h => hs c' (List.mem_cons_of_mem c h)

theorem delimiterCount_written (he : e ∈ delimiters) {f : Field}
    (hf : f.quoted = false → IsPlain f.text) (t : List Char) :
    delimiterCount e false (f.written ++ t) = delimiterCount e false t := by
  obtain ⟨s, q⟩ := f
  cases q with
  | true =>
    have hw : Field.written ⟨s, true⟩ ++ t = '"' :: (doubled s ++ '"' :: t) := by
      simp [Field.written]
    rw [hw, delimiterCount, if_pos rfl]
    exact delimiterCount_doubled e s t
  | false =>
    refine delimiterCount_append (fun c hc => ?_) t
    obtain ⟨hq, hd⟩ := hf rfl c hc
    exact ⟨hq, fun h => hd (h ▸ he)⟩

/-- The delimiter stands between the fields of a record, and no other candidate does. -/
theorem fieldCount_writtenRecord (hd : d ∈ delimiters) (he : e ∈ delimiters) {r : Record}
    (hr : r ≠ []) (hf : ∀ f ∈ r, f.quoted = false → IsPlain f.text) :
    fieldCount e (writtenRecord d r) = if e = d then r.length else 1 := by
  have hcount : delimiterCount e false (writtenRecord d r) =
      if e = d then r.length - 1 else 0 := by
    induction r with
    | nil => exact absurd rfl hr
    | cons f r ih =>
      have hf₁ := hf f List.mem_cons_self
      cases r with
      | nil =>
        have h := delimiterCount_written he hf₁ []
        simpa [delimiterCount] using h
      | cons g r =>
        have ih := ih (List.cons_ne_nil g r) fun f' h => hf f' (List.mem_cons_of_mem f h)
        rw [writtenRecord_cons_cons, delimiterCount_written he hf₁, delimiterCount,
          if_neg (ne_quote_of_mem_delimiters hd), ih]
        by_cases hed : e = d
        · simp [hed]
        · simp [hed, Ne.symm hed]
  have hpos : 0 < r.length := List.length_pos_of_ne_nil hr
  rw [fieldCount, hcount]
  split <;> omega

/-! ## Lines -/

theorem isLineBreak_of_mem_writtenRecord (hd : isLineBreak d = false) {r : Record}
    (hr : OnOneLine r) : ∀ c ∈ writtenRecord d r, isLineBreak c = false := by
  have hwritten : ∀ f ∈ r, ∀ c ∈ f.written, isLineBreak c = false := by
    intro f hf c hc
    have hquote : isLineBreak '"' = false := rfl
    unfold Field.written at hc
    split at hc
    · simp only [doubled, List.cons_append, List.mem_cons, List.mem_append, List.mem_flatMap,
        List.not_mem_nil, or_false] at hc
      rcases hc with rfl | ⟨a, ha, hc⟩ | rfl
      · exact hquote
      · have ha' := hr f hf a ha
        split at hc <;> simp_all
      · exact hquote
    · exact hr f hf c hc
  induction r with
  | nil => simp [writtenRecord]
  | cons f r ih =>
    have hf := hwritten f List.mem_cons_self
    cases r with
    | nil => simpa using hf
    | cons g r =>
      have ih := ih (fun f' h => hr f' (List.mem_cons_of_mem f h))
        fun f' h => hwritten f' (List.mem_cons_of_mem f h)
      intro c hc
      rw [writtenRecord_cons_cons, List.mem_append, List.mem_cons] at hc
      rcases hc with hc | rfl | hc
      · exact hf c hc
      · exact hd
      · exact ih c hc

theorem nonemptyLines_append {s : List Char} (hne : s ≠ [])
    (hs : ∀ c ∈ s, isLineBreak c = false) (e : LineEnd) (w : List Char) :
    nonemptyLines (s ++ (e.text ++ w)) = s :: nonemptyLines w := by
  have hsplit : ∀ c u, isLineBreak c = true →
      nonemptyLines (s ++ c :: u) = s :: nonemptyLines u := by
    intro c u hc
    rw [nonemptyLines, List.splitOnP_append_cons_of_forall_mem hs c hc,
      List.filter_cons_of_pos (by simp [hne])]
    rfl
  cases e with
  | lineFeed => exact hsplit '\n' w rfl
  | carriageReturn => exact hsplit '\r' w rfl
  | both =>
    have hempty : nonemptyLines ('\n' :: w) = nonemptyLines w := by
      have h : ([] ++ '\n' :: w).splitOnP isLineBreak = [] :: w.splitOnP isLineBreak :=
        List.splitOnP_append_cons_of_forall_mem (by simp) '\n' rfl w
      rw [List.nil_append] at h
      rw [nonemptyLines, h]
      rfl
    rw [← hempty]
    exact hsplit '\r' ('\n' :: w) rfl

theorem nonemptyLines_eq_singleton {s : List Char} (hne : s ≠ [])
    (hs : ∀ c ∈ s, isLineBreak c = false) : nonemptyLines s = [s] := by
  rw [nonemptyLines, List.splitOnP_eq_singleton hs]
  simp [hne]

/-- The lines of a written table are its records. -/
theorem IsWritten.nonemptyLines_eq (hd : isLineBreak d = false) {rs : List Record}
    {w : List Char} (h : IsWritten d rs w) (hr : ∀ r ∈ rs, IsWritable (IsBare d) r)
    (hl : ∀ r ∈ rs, OnOneLine r) : nonemptyLines w = rs.map (writtenRecord d) := by
  have hne : ∀ r ∈ rs, writtenRecord d r ≠ [] := by
    intro r h
    obtain ⟨c, u, hw, -⟩ := (hr r h).exists_head hd
    simp [hw]
  have hbreak : ∀ r ∈ rs, ∀ c ∈ writtenRecord d r, isLineBreak c = false :=
    fun r h => isLineBreak_of_mem_writtenRecord hd (hl r h)
  clear hr hl
  induction h with
  | nil => rfl
  | last r =>
    exact nonemptyLines_eq_singleton (hne r List.mem_cons_self) (hbreak r List.mem_cons_self)
  | line r e _ ih =>
    rw [nonemptyLines_append (hne r List.mem_cons_self) (hbreak r List.mem_cons_self),
      ih (fun r' h' => hne r' (List.mem_cons_of_mem r h'))
        fun r' h' => hbreak r' (List.mem_cons_of_mem r h'), List.map_cons]

/-! ## Detection -/

/-- The lines of a table with several columns suggest its delimiter. -/
theorem suggestedDelimiter_of_lines (hd : d ∈ delimiters) {k : Nat} (hk : 2 ≤ k)
    {rs : List Record} {w : List Char} (hrs : rs ≠ [])
    (hw : nonemptyLines w = rs.map (writtenRecord d)) (hlen : ∀ r ∈ rs, r.length = k)
    (hf : ∀ r ∈ rs, ∀ f ∈ r, f.quoted = false → IsPlain f.text) :
    suggestedDelimiter w = d := by
  have hlines : ∀ l ∈ sample w, ∃ r ∈ rs, writtenRecord d r = l := by
    intro l hl
    have hmem := List.mem_of_mem_take hl
    rwa [hw, List.mem_map] at hmem
  have hne : sample w ≠ [] := by
    rw [sample, hw]
    simp [sampleSize, hrs]
  have hcount : ∀ e ∈ delimiters, ∀ l ∈ sample w, fieldCount e l = if e = d then k else 1 := by
    intro e he l hl
    obtain ⟨r, hr, rfl⟩ := hlines l hl
    have hlen := hlen r hr
    rw [fieldCount_writtenRecord hd he (List.ne_nil_of_length_pos (by omega)) (hf r hr), hlen]
  have hscore : ∀ e ∈ delimiters,
      score (sample w) e = if e = d then splitBonus else -splitBonus := by
    intro e he
    rw [score_of_forall_fieldCount hne (hcount e he)]
    by_cases hed : e = d
    · simp [hed, show 1 < k by omega]
    · simp [hed]
  have hbest : bestDelimiter (sample w) delimiters = some d := by
    apply bestDelimiter_eq_some hd
    intro e he hed
    rw [hscore e he, hscore d hd, if_neg hed, if_pos rfl]
    decide
  simp [suggestedDelimiter, hne, hbest]

/-- A written table of several columns names its delimiter by its lines alone, and reading
it by that delimiter gives its rows. -/
theorem table_none_of_isWritten (hd : d ∈ delimiters) {k : Nat} (hk : 2 ≤ k)
    {rs : List Record} {w : List Char} (hrs : rs ≠ []) (hlen : ∀ r ∈ rs, r.length = k)
    (hl : ∀ r ∈ rs, OnOneLine r) (hr : ∀ r ∈ rs, IsWritable IsPlain r) (hw : IsWritten d rs w)
    (hmark : w.head? ≠ some byteOrderMark) (hhint : separatorHint? (firstLine w) = none) :
    delimiterOf w = d ∧ table none w = rs.map rowOf := by
  have hb : isLineBreak d = false := isLineBreak_of_mem_delimiters hd
  have hbare : ∀ r ∈ rs, IsWritable (IsBare d) r := fun r h =>
    (hr r h).mono fun f hf hplain => hplain.isBare hd (hl r h f hf)
  have hdetect : delimiterOf w = d := by
    rw [delimiterOf, hhint, Option.getD_none]
    exact suggestedDelimiter_of_lines hd hk hrs (hw.nonemptyLines_eq hb hbare hl) hlen
      fun r h => (hr r h).bare_of_unquoted
  refine ⟨hdetect, ?_⟩
  rw [table, dropByteOrderMark_eq_self hmark, takeHint_eq_none hhint]
  change rows (delimiterOf w) w = _
  rw [hdetect]
  exact hw.rows_eq (ne_quote_of_mem_delimiters hd) hb hbare

end

theorem table_none_of_isWritten_semicolon :
    delimiterOf ['"', ',', '"', '"', '"', ';', 'x', '\r', '\n', ';', '"', ';', '|', '"', '\r'] =
        ';' ∧
      table none ['"', ',', '"', '"', '"', ';', 'x', '\r', '\n', ';', '"', ';', '|', '"', '\r'] =
        [[",\"", "x"], ["", ";|"]] := by
  have hw : IsWritten ';'
      [[⟨[',', '"'], true⟩, ⟨['x'], false⟩], [⟨[], false⟩, ⟨[';', '|'], true⟩]]
      ['"', ',', '"', '"', '"', ';', 'x', '\r', '\n', ';', '"', ';', '|', '"', '\r'] :=
    .line _ .both (.line _ .carriageReturn .nil)
  refine table_none_of_isWritten (k := 2) (by decide) (by decide) (by simp) (by simp)
    (by simp [OnOneLine, isLineBreak]) (fun r hr => ?_) hw (by decide) (by decide)
  simp only [List.mem_cons, List.not_mem_nil, or_false] at hr
  rcases hr with rfl | rfl
  all_goals exact ⟨by simp, by simp [IsPlain, delimiters], by simp⟩

end Salvage.Csv
