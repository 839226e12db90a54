import Salvage.Proofs.Csv.Isolation

/-! # Scanning a table

A scan takes a table character by character and looks at no more than the next one. It keeps the
text of the field that it is in, and a quote opens a quoted part only where that text is empty.
The scan gives the rows of the text, and at its end a quoted part is open just if a reader stands
inside quotes there.
-/

namespace Salvage.Csv

open Text

/-- A scan of a table: the rows in front of the one that it is in, the fields of that row, the
text of its last field, whether anything of it was read, and whether a quoted part is open. -/
structure Scan where
  rows : List Row
  row : Row
  field : List Char
  dirty : Bool
  quoted : Bool

namespace Scan

def start : Scan := ⟨[], [], [], false, false⟩

def push (x : Scan) (c : Char) : Scan := { x with field := x.field ++ [c], dirty := true }

def openQuote (x : Scan) : Scan := { x with dirty := true, quoted := true }

def closeQuote (x : Scan) : Scan := { x with quoted := false }

def endField (x : Scan) : Scan :=
  { x with row := x.row ++ [String.ofList x.field], field := [], dirty := true }

/-- The scan behind the end of a row, which is left out if nothing of it was read. -/
def endRow (x : Scan) : Scan :=
  if x.dirty then
    { x with
      rows := x.rows ++ [x.row ++ [String.ofList x.field]], row := [], field := [], dirty := false }
  else x

/-- The scan behind a text. -/
def run (d : Char) (x : Scan) : List Char → Scan
  | [] => x
  | c :: s =>
    if x.quoted then
      if c = '"' then
        if s.head? = some '"' then run d (x.push '"') s.tail else run d x.closeQuote s
      else run d (x.push c) s
    else if c = '"' ∧ x.field = [] then run d x.openQuote s
    else if c = d then run d x.endField s
    else if c = '\r' then
      if s.head? = some '\n' then run d x.endRow s.tail else run d x.endRow s
    else if c = '\n' then run d x.endRow s
    else run d (x.push c) s
termination_by s => s.length
decreasing_by all_goals simp only [List.length_cons, List.length_tail]; omega

/-- The scan of a whole text. -/
def ofText (d : Char) (s : List Char) : Scan := run d start s

/-- The rows of a scan at the end of its text. -/
def finish (x : Scan) : List Row := x.endRow.rows

variable {d c : Char} {s t : List Char} {x : Scan} {f : Field} {r : Record} {rs : List Record}
  {p : Place}

/-! ## Fields -/

theorem run_push (hx : x.quoted = false) (hc : isContent d c = true)
    (hq : x.field = [] → c ≠ '"') (s : List Char) : run d x (c :: s) = run d (x.push c) s := by
  have hends : c ≠ d ∧ c ≠ '\r' ∧ c ≠ '\n' := by simpa [isContent, isLineBreak] using hc
  have hopen : ¬(c = '"' ∧ x.field = []) := fun h => hq h.2 h.1
  rw [run]
  simp [hx, hends, hopen]

/-- Outside quotes a scan takes what does not end the field. -/
theorem run_content (hx : x.quoted = false) (hq : x.field = [] → s.head? ≠ some '"') :
    run d x s =
      run d { x with
        field := x.field ++ s.takeWhile (isContent d)
        dirty := x.dirty || !(s.takeWhile (isContent d)).isEmpty } (s.dropWhile (isContent d)) := by
  induction s generalizing x with
  | nil => simp
  | cons c s ih =>
    by_cases hc : isContent d c = true
    · have hquote : x.field = [] → c ≠ '"' := fun h => by simpa using hq h
      rw [run_push hx hc hquote, ih (x := x.push c) hx (by simp [push])]
      simp [push, hc]
    · simp [hc]

/-- The scan goes through a quoted part as it is read, and one that is not closed ends the
text. -/
theorem finish_run_quoted (hx : x.quoted = true) (hdirty : x.dirty = true) (s : List Char) :
    (run d x s).finish =
      (run d { x with field := x.field ++ (quotedPart s).1, quoted := false }
        (quotedPart s).2).finish := by
  fun_induction quotedPart s generalizing x with
  | case1 =>
    -- The text ends inside quotes, and the scan gives the same rows as outside.
    simp [run, finish, endRow, hdirty]
  | case2 t ih =>
    have hrun : run d x ('"' :: '"' :: t) = run d (x.push '"') t := by
      rw [run]
      simp [hx]
    rw [hrun, ih (x := x.push '"') hx rfl]
    simp [push, hdirty]
  | case3 t ht =>
    have hhead : t.head? ≠ some '"' := fun h => (List.head?_eq_some_iff.mp h).elim ht
    have hrun : run d x ('"' :: t) = run d x.closeQuote t := by
      rw [run]
      simp [hx, hhead]
    simp [hrun, closeQuote]
  | case4 c t hc ih =>
    have hrun : run d x (c :: t) = run d (x.push c) t := by
      rw [run]
      simp [hx, hc]
    rw [hrun, ih (x := x.push c) hx rfl]
    simp [push, hdirty]

/-- Behind a quoted part no quote follows that the part would go on with. -/
theorem head?_quotedPart (s : List Char) : (quotedPart s).2.head? ≠ some '"' := by
  fun_induction quotedPart s with
  | case1 => simp
  | case2 t ih => exact ih
  | case3 t ht => exact fun h => (List.head?_eq_some_iff.mp h).elim ht
  | case4 c t hc ih => exact ih

theorem isBlankRecord_singleton (f : Field) :
    isBlankRecord [f] = (!f.quoted && f.text.isEmpty) := by
  obtain ⟨s, q⟩ := f
  rw [Bool.eq_iff_iff]
  simp [isBlankRecord, and_comm]

/-- The scan behind a field. -/
def take (x : Scan) (f : Field) : Scan :=
  { x with field := f.text, dirty := x.dirty || !isBlankRecord [f] }

/-- The scan stands where a field begins, and a row too if nothing of one was read. -/
structure AtField (x : Scan) : Prop where
  quoted_eq : x.quoted = false
  field_eq : x.field = []
  row_eq : x.dirty = false → x.row = []

theorem AtField.finish_run_field (h : x.AtField) (hf : Csv.field d s = (f, t)) :
    (run d x s).finish = (run d (x.take f) t).finish := by
  have hx := h.quoted_eq
  have hfield := h.field_eq
  cases s with
  | nil =>
    obtain ⟨rfl, rfl⟩ := Prod.mk.inj hf
    simp [take, isBlankRecord, ← hfield]
  | cons c s =>
    rw [Csv.field] at hf
    split at hf
    · rename_i hc
      obtain ⟨rfl, rfl⟩ := Prod.mk.inj hf
      have hrun : run d x (c :: s) = run d x.openQuote s := by
        rw [run]
        simp [hx, hfield, hc]
      rw [hrun, finish_run_quoted rfl rfl, run_content rfl fun _ => head?_quotedPart s]
      simp [openQuote, take, isBlankRecord_singleton, hx, hfield]
    · rename_i hc
      obtain ⟨rfl, rfl⟩ := Prod.mk.inj hf
      rw [run_content hx fun _ => by simpa using hc]
      simp [take, isBlankRecord_singleton, hx, hfield]

/-- What ends a run of a text that begins with no quote is no quote either, if the run is empty. -/
theorem of_dropWhile_eq_cons {q : Char → Bool} (hs : s.head? ≠ some '"')
    (h : s.dropWhile q = c :: t) : q c = false ∧ (s.takeWhile q = [] → c ≠ '"') := by
  refine ⟨head?_dropWhile s c (by rw [h]; rfl), ?_⟩
  rintro hnil rfl
  have hself : s = '"' :: t := by
    rw [← List.takeWhile_append_dropWhile (p := q) (l := s), hnil, h, List.nil_append]
  exact hs (by rw [hself]; rfl)

/-- A quote never follows an empty field, so the scan opens no quoted part there. -/
theorem of_field_eq_cons (h : Csv.field d s = (f, c :: t)) :
    isContent d c = false ∧ (f.text = [] → c ≠ '"') := by
  cases s with
  | nil => simp [Csv.field] at h
  | cons b s =>
    rw [Csv.field] at h
    split at h
    · obtain ⟨rfl, hdrop⟩ := Prod.mk.inj h
      obtain ⟨hcontent, hquote⟩ := of_dropWhile_eq_cons (head?_quotedPart s) hdrop
      exact ⟨hcontent, fun hnil => hquote (List.append_eq_nil_iff.mp hnil).2⟩
    · rename_i hb
      obtain ⟨rfl, hdrop⟩ := Prod.mk.inj h
      exact of_dropWhile_eq_cons (by simpa using hb) hdrop

/-! ## Records -/

theorem run_delimiter (hx : x.quoted = false) (hq : x.field = [] → d ≠ '"') (s : List Char) :
    run d x (d :: s) = run d x.endField s := by
  have hopen : ¬(d = '"' ∧ x.field = []) := fun h => hq h.2 h.1
  rw [run]
  simp [hx, hopen]

theorem run_lineBreak (hx : x.quoted = false) (hd : c ≠ d) (hc : isLineBreak c = true)
    (s : List Char) : run d x (c :: s) = run d x.endRow (afterBreak c s) := by
  have hopen : c ≠ '"' := by
    rintro rfl
    simp [isLineBreak] at hc
  have hbreak : c = '\r' ∨ c = '\n' := by simpa [isLineBreak] using hc
  rw [run]
  rcases hbreak with rfl | rfl
  · cases s with
    | nil => simp [hx, hd, afterBreak]
    | cons b s => by_cases hb : b = '\n' <;> simp [hx, hd, hb, afterBreak]
  · cases s <;> simp [hx, hd, afterBreak]

theorem dirty_endRow (x : Scan) : x.endRow.dirty = false := by
  cases hdirty : x.dirty <;> simp [endRow, hdirty]

theorem atField_start : start.AtField := ⟨rfl, rfl, fun _ => rfl⟩

theorem AtField.quoted_take (h : x.AtField) (f : Field) : (x.take f).quoted = false := h.quoted_eq

theorem AtField.endField_take (h : x.AtField) (f : Field) : (x.take f).endField.AtField :=
  ⟨h.quoted_eq, rfl, by simp [endField]⟩

theorem AtField.endRow_take (h : x.AtField) (f : Field) : (x.take f).endRow.AtField := by
  unfold endRow
  split
  · exact ⟨h.quoted_eq, rfl, fun _ => rfl⟩
  · rename_i hdirty
    have hblank : x.dirty = false ∧ f = ⟨[], false⟩ := by
      simpa [take, isBlankRecord] using hdirty
    exact ⟨h.quoted_eq, by simp [take, hblank.2], fun _ => h.row_eq hblank.1⟩

/-- The rows that a scan gives together with the records from its place on. -/
def rowsWith (x : Scan) : List Record → List Row
  | [] => x.rows
  | r :: rs => x.rows ++ ((if x.dirty then [x.row ++ rowOf r] else rowsOf r) ++ rs.flatMap rowsOf)

theorem AtField.finish_take (h : x.AtField) (f : Field) : (x.take f).finish = x.rowsWith [[f]] := by
  have hrow := h.row_eq
  cases hdirty : x.dirty with
  | true => simp [finish, endRow, take, rowsWith, rowOf, hdirty]
  | false =>
    cases hblank : isBlankRecord [f] <;>
      simp [finish, endRow, take, rowsWith, rowOf, rowsOf, hdirty, hblank, hrow hdirty]

theorem AtField.rowsWith_endField (h : x.AtField) (f : Field) (hr : r ≠ []) :
    (x.take f).endField.rowsWith (r :: rs) = x.rowsWith ((f :: r) :: rs) := by
  have hrow := h.row_eq
  have hblank : isBlankRecord (f :: r) = false := by simp [isBlankRecord, hr]
  cases hdirty : x.dirty <;>
    simp [endField, take, rowsWith, rowOf, rowsOf, hdirty, hblank, hrow]

theorem AtField.rowsWith_endRow (h : x.AtField) (f : Field) (rs : List Record) :
    (x.take f).endRow.rowsWith rs = x.rowsWith ([f] :: rs) := by
  have hrow := (h.endRow_take f).row_eq (dirty_endRow _)
  have hrows : (x.take f).endRow.rows = x.rowsWith [[f]] := h.finish_take f
  cases rs with
  | nil => simp [rowsWith, hrows]
  | cons r rs =>
    rw [rowsWith, dirty_endRow, hrow, hrows]
    simp [rowsWith]

theorem AtField.finish_run (h : x.AtField) (s : List Char) :
    (run d x s).finish = x.rowsWith (records d s) := by
  fun_induction records d s generalizing x with
  | case1 s f hf => rw [h.finish_run_field hf, run, h.finish_take]
  | case2 s f t hf ih =>
    obtain ⟨r, rs, hrecords⟩ := exists_records_cons (d := d) (s := t) rfl
    -- The row goes on with a field.
    have hrun : run d (x.take f) (d :: t) = run d (x.take f).endField t :=
      run_delimiter (h.quoted_take f) (of_field_eq_cons hf).2 t
    rw [h.finish_run_field hf, hrun, ih (h.endField_take f), hrecords,
      h.rowsWith_endField f (List.cons_ne_nil _ r), consField]
  | case3 s f c t hf hc ih =>
    have hbreak : isLineBreak c = true := by
      simpa [isContent, hc] using (of_field_eq_cons hf).1
    have hrun : run d (x.take f) (c :: t) = run d (x.take f).endRow (afterBreak c t) :=
      run_lineBreak (h.quoted_take f) hc hbreak t
    rw [h.finish_run_field hf, hrun, ih (h.endRow_take f), h.rowsWith_endRow]

/-- The scan gives the rows of the text. -/
theorem finish_ofText (d : Char) (s : List Char) : (ofText d s).finish = Csv.rows d s := by
  rw [ofText, atField_start.finish_run, rows_eq_flatMap]
  cases records d s <;> rfl

/-! ## Places -/

/-- The scan stands where a reader does, with the text in front of both. -/
structure IsAt (p : Place) (x : Scan) (s : List Char) : Prop where
  quoted_iff : x.quoted = true ↔ p = .quoted
  field_eq : p = .fieldStart → x.field = []
  field_ne : p = .bare → x.field ≠ []
  head_ne : p = .quoteRead → s.head? ≠ some '"'
  field_of_dirty : x.dirty = false → x.field = []

namespace IsAt

theorem fieldStart (hx : ¬x.quoted = true) (hf : x.field = []) (s : List Char) :
    IsAt .fieldStart x s := ⟨by simp [hx], fun _ => hf, by simp, by simp, fun _ => hf⟩

theorem quoted (hx : x.quoted = true) (hdirty : x.dirty = true) (s : List Char) :
    IsAt .quoted x s := ⟨by simp [hx], by simp, by simp, by simp, by simp [hdirty]⟩

theorem ofText (s : List Char) : IsAt .fieldStart start s := .fieldStart (by simp [start]) rfl s

theorem push (hx : ¬x.quoted = true) (c : Char) (s : List Char) : IsAt .bare (x.push c) s :=
  ⟨by simp [Scan.push, hx], by simp, by simp [Scan.push], by simp, by simp [Scan.push]⟩

theorem closeQuote (h : IsAt p x s) (hs : t.head? ≠ some '"') : IsAt .quoteRead x.closeQuote t :=
  ⟨by simp [Scan.closeQuote], by simp, by simp, fun _ => hs, h.field_of_dirty⟩

theorem endRow (h : IsAt p x s) (hx : ¬x.quoted = true) (t : List Char) :
    IsAt .fieldStart x.endRow t := by
  unfold Scan.endRow
  split
  · refine .fieldStart ?_ rfl t
    exact hx
  · rename_i hdirty
    exact .fieldStart hx (h.field_of_dirty (by simpa using hdirty)) t

/-- A quote behind a place outside quotes opens a quoted part there just if the field is empty. -/
theorem next_quote (h : IsAt p x ('"' :: s)) (hx : ¬x.quoted = true) (hf : x.field = []) :
    p.next d '"' = .quoted := by
  cases p with
  | quoted => simpa [hx] using h.quoted_iff
  | bare => exact absurd hf (h.field_ne rfl)
  | fieldStart => rfl
  | quoteRead => rfl

theorem next_bare (h : IsAt p x (c :: s)) (hx : ¬x.quoted = true)
    (hc : ¬(c = '"' ∧ x.field = [])) :
    p.next d c = if isContent d c then .bare else .fieldStart := by
  cases p with
  | quoted => simpa [hx] using h.quoted_iff
  | bare => rfl
  | fieldStart =>
    have hq : c ≠ '"' := fun hq => hc ⟨hq, h.field_eq rfl⟩
    simp [Place.next, hq]
  | quoteRead =>
    have hq : c ≠ '"' := fun hq => by simpa [hq] using h.head_ne rfl
    simp [Place.next, hq]

theorem next_end (h : IsAt p x (c :: s)) (hx : ¬x.quoted = true)
    (hc : ¬(c = '"' ∧ x.field = [])) (hend : isContent d c = false) :
    p.next d c = .fieldStart := by
  rw [h.next_bare hx hc, hend]
  rfl

end IsAt

theorem quoted_run_iff (h : IsAt p x s) :
    (run d x s).quoted = true ↔ s.foldl (Place.next d) p = .quoted := by
  fun_induction run d x s generalizing p with
  | case1 x => exact h.quoted_iff
  | case2 x s hx hs ih =>
    obtain ⟨t, rfl⟩ := List.head?_eq_some_iff.mp hs
    obtain rfl := h.quoted_iff.mp hx
    have hnext : (Place.quoted.next d '"').next d '"' = .quoted := by simp [Place.next]
    rw [List.foldl_cons, List.foldl_cons, hnext]
    exact ih (.quoted (x := x.push '"') hx rfl t)
  | case3 x s hx hs ih =>
    obtain rfl := h.quoted_iff.mp hx
    exact ih (h.closeQuote hs)
  | case4 x c s hx hc ih =>
    obtain rfl := h.quoted_iff.mp hx
    rw [List.foldl_cons, Place.next, if_neg hc]
    exact ih (.quoted (x := x.push c) hx rfl s)
  | case5 x c s hx hc ih =>
    obtain ⟨rfl, hf⟩ := hc
    rw [List.foldl_cons, h.next_quote hx hf]
    exact ih (.quoted rfl rfl s)
  | case6 x s hx hc ih =>
    rw [List.foldl_cons, h.next_end hx hc (isContent_delimiter d)]
    exact ih (.fieldStart (x := x.endField) hx rfl s)
  | case7 x s hx hs hc _ ih =>
    -- The reader stands at the start of a field behind both characters of the line end.
    obtain ⟨t, rfl⟩ := List.head?_eq_some_iff.mp hs
    have hnext : Place.fieldStart.next d '\n' = .fieldStart :=
      (IsAt.ofText ['\n']).next_end (by simp [start]) (by simp) (isContent_of_isLineBreak rfl)
    rw [List.foldl_cons, h.next_end hx hc (isContent_of_isLineBreak rfl), List.foldl_cons, hnext]
    exact ih (h.endRow hx t)
  | case8 x s hx _ hc _ ih =>
    rw [List.foldl_cons, h.next_end hx hc (isContent_of_isLineBreak rfl)]
    exact ih (h.endRow hx s)
  | case9 x s hx hc _ _ ih =>
    rw [List.foldl_cons, h.next_end hx hc (isContent_of_isLineBreak rfl)]
    exact ih (h.endRow hx s)
  | case10 x c s hx hc hd hr hl ih =>
    have hcontent : isContent d c = true := by simp [isContent, isLineBreak, hd, hr, hl]
    rw [List.foldl_cons, h.next_bare hx hc, if_pos hcontent]
    exact ih (.push hx c s)

/-- At the end of a text a quoted part is open in the scan just if a reader stands inside quotes. -/
theorem quoted_ofText_iff (d : Char) (s : List Char) :
    (ofText d s).quoted = true ↔ placeAfter d s = .quoted :=
  quoted_run_iff (.ofText s)

end Scan

end Salvage.Csv
