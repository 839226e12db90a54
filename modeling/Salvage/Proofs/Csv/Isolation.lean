import Salvage.Proofs.Csv.Grammar

/-! # Rows one after another

A reader of a table stands inside a quoted part or outside of it. Where a text ends outside, a
line end ends its last record, so the rows of a text behind that are read as if they stood
alone. A quoted part that is left open takes the line end and what follows into its field.
-/

namespace Salvage.Csv

open Text

/-- Where a reader stands in a table. -/
inductive Place where
  | fieldStart
  | bare
  | quoted
  /-- Behind a quote in a quoted part, which that quote closes unless another one follows. -/
  | quoteRead
deriving DecidableEq, Repr

/-- The place behind one more character. -/
def Place.next (d : Char) : Place → Char → Place
  | .quoted, c => if c = '"' then .quoteRead else .quoted
  | .bare, c => if isContent d c then .bare else .fieldStart
  | .fieldStart, c | .quoteRead, c =>
    if c = '"' then .quoted else if isContent d c then .bare else .fieldStart

def placeAfter (d : Char) (s : List Char) : Place := s.foldl (Place.next d) .fieldStart

/-- The rows that a record gives, which are one or none. -/
def rowsOf (r : Record) : List Row := if isBlankRecord r then [] else [rowOf r]

variable {d : Char} {s t : List Char} {p : Place} {f : FieldForm} {r : List FieldForm}

/-! ## Places -/

theorem placeAfter_append (d : Char) (s t : List Char) :
    placeAfter d (s ++ t) = t.foldl (Place.next d) (placeAfter d s) := List.foldl_append

/-- Outside of quotes a delimiter ends a field, and so does a line break. -/
theorem next_eq_fieldStart {c : Char} (hp : p ≠ .quoted) (hd : d ≠ '"')
    (hc : isContent d c = false) : p.next d c = .fieldStart := by
  have hq : c ≠ '"' := by
    rintro rfl
    simp [isContent_quote hd] at hc
  cases p with
  | quoted => exact absurd rfl hp
  | _ => simp [Place.next, hq, hc]

theorem foldl_next_doubled (d : Char) (s : List Char) :
    (doubled s).foldl (Place.next d) .quoted = .quoted := by
  induction s with
  | nil => rfl
  | cons c s ih =>
    rw [doubled_cons, List.foldl_append]
    by_cases hc : c = '"'
    · simpa [hc, Place.next] using ih
    · simpa [hc, Place.next] using ih

theorem foldl_next_content (hs : ∀ c ∈ s, isContent d c = true) :
    s.foldl (Place.next d) .bare = .bare := by
  induction s with
  | nil => rfl
  | cons c s ih =>
    obtain ⟨hc, hs⟩ := List.forall_mem_cons.mp hs
    rw [List.foldl_cons, Place.next, if_pos hc, ih hs]

/-- Bare text opens no quoted part. -/
theorem IsBare.foldl_next_ne (hs : IsBare d s) (hp : p ≠ .quoted) :
    s.foldl (Place.next d) p ≠ .quoted := by
  cases s with
  | nil => exact hp
  | cons c s =>
    obtain ⟨hc, hcontent⟩ := List.forall_mem_cons.mp hs.1
    have hq : c ≠ '"' := fun h => hs.2 (h ▸ rfl)
    have hnext : p.next d c = .bare := by
      cases p with
      | quoted => exact absurd rfl hp
      | _ => simp [Place.next, hq, hc]
    rw [List.foldl_cons, hnext, foldl_next_content hcontent]
    simp

/-- A field leaves its reader inside quotes just if it is not closed. -/
theorem FieldForm.WellFormed.placeAfter_eq_iff (hf : f.WellFormed d) :
    placeAfter d f.text = .quoted ↔ f.isUnclosed = true := by
  cases f with
  | bare s =>
    have hplace : placeAfter d s ≠ .quoted := IsBare.foldl_next_ne hf (by simp)
    simpa [isUnclosed, text] using hplace
  | closed i tail =>
    have hplace : placeAfter d (closed i tail).text = tail.foldl (Place.next d) .quoteRead := by
      simp [placeAfter, text, Place.next, foldl_next_doubled]
    simpa [isUnclosed, hplace] using IsBare.foldl_next_ne hf (p := .quoteRead) (by simp)
  | unclosed i =>
    have hplace : placeAfter d (unclosed i).text = .quoted := foldl_next_doubled d i
    simp [isUnclosed, hplace]

/-- Behind a field that is closed its end leads to the next field. -/
theorem placeAfter_append_cons (hd : d ≠ '"') (hs : placeAfter d s ≠ .quoted) {c : Char}
    (hc : isContent d c = false) (t : List Char) :
    placeAfter d (s ++ c :: t) = placeAfter d t := by
  rw [placeAfter_append, List.foldl_cons, next_eq_fieldStart hs hd hc, placeAfter]

theorem placeAfter_append_lineEnd (hd : d ≠ '"') (hs : placeAfter d s ≠ .quoted) (e : LineEnd)
    (t : List Char) : placeAfter d (s ++ (e.text ++ t)) = placeAfter d t := by
  have hbreak : ∀ {c}, isLineBreak c = true → isContent d c = false := isContent_of_isLineBreak
  cases e with
  | lineFeed => exact placeAfter_append_cons hd hs (hbreak rfl) t
  | carriageReturn => exact placeAfter_append_cons hd hs (hbreak rfl) t
  | both =>
    refine (placeAfter_append_cons hd hs (hbreak rfl) ('\n' :: t)).trans ?_
    exact placeAfter_append_cons (s := []) hd (by simp [placeAfter]) (hbreak rfl) t

/-- A record that is not at the end of its text is closed. -/
theorem IsRecord.placeAfter_ne (hd : d ≠ '"') (h : IsRecord d false r) :
    placeAfter d (recordText d r) ≠ .quoted := by
  induction h with
  | last hf hu =>
    rw [recordText_singleton, Ne, hf.placeAfter_eq_iff]
    exact fun h => by simpa using hu h
  | @more f r hf hu h ih =>
    have hfield : placeAfter d f.text ≠ .quoted := by simp [hf.placeAfter_eq_iff, hu]
    rwa [recordText_cons d f h.ne_nil, placeAfter_append_cons hd hfield (isContent_delimiter d)]

/-! ## Records in front of a line end -/

theorem rows_eq_flatMap (d : Char) (s : List Char) : rows d s = (records d s).flatMap rowsOf := by
  rw [rows]
  induction records d s with
  | nil => rfl
  | cons r rs ih =>
    rw [List.flatMap_cons, ← ih, rowsOf]
    cases h : isBlankRecord r <;> simp [h, rowOf]

theorem rows_of_records_cons {r : Record} (h : records d s = r :: records d t) :
    rows d s = rowsOf r ++ rows d t := by
  rw [rows_eq_flatMap, h, List.flatMap_cons, ← rows_eq_flatMap]

/-- A line feed in front of a text is at most the end of a record without any character. -/
theorem rows_lineFeed_cons (hb : isLineBreak d = false) (s : List Char) :
    rows d ('\n' :: s) = rows d s := by
  have hread : RecordRead d ('\n' :: s) [⟨[], false⟩] ('\n' :: s) :=
    .last (by simp [field, isContent, isLineBreak]) (by simp [isLineBreak])
  have hafter : recordsAfter d ('\n' :: s) = records d s :=
    recordsAfter_lineEnd .lineFeed (by simp)
  exact rows_of_records_cons ((hread.records_eq hb).trans (by rw [hafter]))

/-- A record in front of a line end is read apart from what follows. -/
theorem IsRecord.rows_append_lineEnd (hd : d ≠ '"') (hb : isLineBreak d = false)
    (h : IsRecord d false r) (e : LineEnd) (t : List Char) :
    rows d (recordText d r ++ (e.text ++ t)) = rowsOf (r.map FieldForm.field) ++ rows d t := by
  have hread := (h.recordRead hd (t := e.text ++ t) (by simp) e.isLineBreak_head?).records_eq hb
  by_cases hseam : e = .carriageReturn ∧ t.head? = some '\n'
  · -- The line feed is part of the line end, and there is no record in front of it.
    obtain ⟨rfl, ht⟩ := hseam
    obtain ⟨u, rfl⟩ := List.head?_eq_some_iff.mp ht
    have hafter : recordsAfter d (LineEnd.carriageReturn.text ++ '\n' :: u) = records d u := rfl
    rw [rows_lineFeed_cons hb]
    exact rows_of_records_cons (hread.trans (by rw [hafter]))
  · have hafter := recordsAfter_lineEnd (d := d) e (w := t) fun he ht => hseam ⟨he, ht⟩
    exact rows_of_records_cons (hread.trans (by rw [hafter]))

/-! ## Records that are left open -/

/-- Some fields, the last of which is not closed. -/
inductive IsOpenRecord (d : Char) : List FieldForm → Prop where
  | last (inner : List Char) : IsOpenRecord d [.unclosed inner]
  | more {f : FieldForm} {r : List FieldForm} (hf : f.WellFormed d) (hu : f.isUnclosed = false)
      (h : IsOpenRecord d r) : IsOpenRecord d (f :: r)

theorem IsRecord.closed_or_open (h : IsRecord d true r) :
    IsRecord d false r ∨ IsOpenRecord d r := by
  induction h with
  | @last f hf _ =>
    cases f with
    | unclosed inner => exact .inr (.last inner)
    | _ => exact .inl (.last hf (by simp [FieldForm.isUnclosed]))
  | more hf hu _ ih => exact ih.imp (.more hf hu) (.more hf hu)

namespace IsOpenRecord

theorem ne_nil (h : IsOpenRecord d r) : r ≠ [] := by
  cases h <;> simp

theorem placeAfter_eq (hd : d ≠ '"') (h : IsOpenRecord d r) :
    placeAfter d (recordText d r) = .quoted := by
  induction h with
  | last inner =>
    rw [recordText_singleton]
    exact (FieldForm.WellFormed.placeAfter_eq_iff (f := .unclosed inner) trivial).mpr rfl
  | @more f r hf hu h ih =>
    have hfield : placeAfter d f.text ≠ .quoted := by simp [hf.placeAfter_eq_iff, hu]
    rwa [recordText_cons d f h.ne_nil, placeAfter_append_cons hd hfield (isContent_delimiter d)]

theorem isBlankRecord_eq (h : IsOpenRecord d r) :
    isBlankRecord (r.map FieldForm.field) = false := by
  rw [Reading.isBlankRecord_map_field, decide_eq_false_iff_not]
  rintro rfl
  cases h with
  | more _ _ h => exact h.ne_nil rfl

end IsOpenRecord

theorem exists_records_cons {f : Field} (h : field d s = (f, t)) :
    ∃ r rs, records d s = (f :: r) :: rs := by
  cases t with
  | nil => exact ⟨[], [], records_of_field_nil h⟩
  | cons c t =>
    rw [records_of_field_cons h]
    split
    · cases records d t with
      | nil => exact ⟨[], [], rfl⟩
      | cons r rs => exact ⟨r, rs, rfl⟩
    · exact ⟨[], _, rfl⟩

/-- A field that is left open goes on with the line end behind it. -/
theorem exists_field_unclosed (d : Char) (inner : List Char) (e : LineEnd) (t : List Char) :
    ∃ f u, field d ((FieldForm.unclosed inner).text ++ (e.text ++ t)) = (f, u) ∧
      f.quoted = true ∧ f.text ≠ inner := by
  obtain ⟨c, v, hv, hc⟩ : ∃ c v, e.text ++ t = c :: v ∧ c ≠ '"' := by
    cases e <;> exact ⟨_, _, rfl, by decide⟩
  rw [FieldForm.text, List.cons_append, field, if_pos rfl, quotedPart_doubled_append, hv,
    quotedPart_cons hc]
  exact ⟨_, _, rfl, rfl, by simp⟩

/-- The record that is left open is read as another one when a line end follows. -/
theorem IsOpenRecord.exists_records (hd : d ≠ '"') (h : IsOpenRecord d r) (e : LineEnd)
    (t : List Char) : ∃ g r' rs, records d (recordText d r ++ (e.text ++ t)) = (g :: r') :: rs ∧
      isBlankRecord (g :: r') = false ∧ rowOf (g :: r') ≠ rowOf (r.map FieldForm.field) := by
  induction h with
  | last inner =>
    obtain ⟨f, u, hf, hquoted, htext⟩ := exists_field_unclosed d inner e t
    obtain ⟨r', rs, hr⟩ := exists_records_cons hf
    refine ⟨f, r', rs, by rw [recordText_singleton, hr], ?_, ?_⟩
    · have hne : f ≠ ⟨[], false⟩ := by
        rintro rfl
        simp at hquoted
      simp [isBlankRecord, hne]
    · simp [rowOf, FieldForm.field, String.ofList_inj, htext]
  | @more f r hf hu h ih =>
    obtain ⟨g, r', rs, hr, -, hrow⟩ := ih
    have hfield : field d (f.text ++ d :: (recordText d r ++ (e.text ++ t))) =
        (f.field, d :: (recordText d r ++ (e.text ++ t))) :=
      FieldForm.field_text_append hd hf (by simp [hu]) (isContent_head?_delimiter d _)
    refine ⟨f.field, g :: r', rs, ?_, by simp [isBlankRecord], ?_⟩
    · rw [recordText_cons d f h.ne_nil, List.append_assoc, List.cons_append,
        records_of_field_cons hfield, if_pos rfl, hr, consField]
    · simpa [rowOf] using hrow

/-! ## Texts in front of a line end -/

/-- What follows a line end is read apart from the text in front of it just where that text ends
outside quotes. -/
theorem rows_append_lineEnd_iff (hd : d ≠ '"') (hb : isLineBreak d = false) (s : List Char)
    (e : LineEnd) (t : List Char) :
    rows d (s ++ (e.text ++ t)) = rows d s ++ rows d t ↔ placeAfter d s ≠ .quoted := by
  obtain ⟨b, hfor, rfl⟩ := Reading.exists_wellFormed d s
  induction hfor with
  | @last r hr =>
    have hrecords : rows d (recordText d r) = rowsOf (r.map FieldForm.field) := by
      have hread := hr.recordRead hd (t := []) (by simp) (by simp)
      rw [List.append_nil] at hread
      rw [rows_eq_flatMap, hread.records_eq hb, recordsAfter, List.flatMap_singleton]
    rw [Reading.text, hrecords]
    rcases hr.closed_or_open with hclosed | hopen
    · exact iff_of_true (hclosed.rows_append_lineEnd hd hb e t) (hclosed.placeAfter_ne hd)
    · refine iff_of_false (fun h => ?_) (fun h => h (hopen.placeAfter_eq hd))
      obtain ⟨g, r', rs, hread, hblank, hrow⟩ := hopen.exists_records hd e t
      rw [rows_eq_flatMap, hread, List.flatMap_cons, rowsOf, hblank, rowsOf,
        hopen.isBlankRecord_eq] at h
      exact hrow (List.cons.inj h).1
  | @line r e' rest hr he hfor ih =>
    rw [Reading.text, placeAfter_append_lineEnd hd (hr.placeAfter_ne hd), List.append_assoc,
      List.append_assoc, hr.rows_append_lineEnd hd hb, hr.rows_append_lineEnd hd hb,
      List.append_assoc, List.append_cancel_left_eq, ih]

theorem rows_append_lineEnd_iff_seam :
    ';' ≠ '"' ∧ isLineBreak ';' = false ∧
      rows ';' (['x', '"', ';', '"', '"'] ++ (LineEnd.carriageReturn.text ++ ['\n', '"', '\n'])) =
        rows ';' ['x', '"', ';', '"', '"'] ++ rows ';' ['\n', '"', '\n'] :=
  ⟨by decide, rfl, (rows_append_lineEnd_iff (by decide) rfl _ .carriageReturn _).mpr (by decide)⟩

end Salvage.Csv
