import Salvage.Csv.Table
import Salvage.Proofs.Text.Run

/-! # Written tables

A table is written one record to a line. A field stands between quotes, with its own
quotes doubled, or as it is. Lines end in any way, and the last one need not end at all.
Reading a written table gives its records back.
-/

namespace Salvage.Csv

open Text

/-- The text with every quote in it doubled. -/
def doubled (s : List Char) : List Char := s.flatMap fun c => if c = '"' then ['"', '"'] else [c]

def Field.written (f : Field) : List Char :=
  if f.quoted then '"' :: doubled f.text ++ ['"'] else f.text

def writtenRecord (d : Char) (r : Record) : List Char := [d].intercalate (r.map Field.written)

inductive LineEnd where
  | lineFeed
  | carriageReturn
  | both
deriving DecidableEq, Repr

def LineEnd.text : LineEnd → List Char
  | .lineFeed => ['\n']
  | .carriageReturn => ['\r']
  | .both => ['\r', '\n']

theorem LineEnd.isLineBreak_head? (e : LineEnd) {w : List Char} :
    ∀ c ∈ (e.text ++ w).head?, isLineBreak c = true := by
  cases e <;> simp [LineEnd.text, isLineBreak]

/-- The text holds the records, one to a line. -/
inductive IsWritten (d : Char) : List Record → List Char → Prop where
  | nil : IsWritten d [] []
  | last (r : Record) : IsWritten d [r] (writtenRecord d r)
  | line (r : Record) (e : LineEnd) {rs : List Record} {w : List Char} (h : IsWritten d rs w) :
      IsWritten d (r :: rs) (writtenRecord d r ++ (e.text ++ w))

/-- Without quotes stand only texts of a certain kind, and no field that is empty and alone. -/
structure IsWritable (bare : List Char → Prop) (r : Record) : Prop where
  ne_nil : r ≠ []
  bare_of_unquoted : ∀ f ∈ r, f.quoted = false → bare f.text
  ne_blank : r ≠ [⟨[], false⟩]

/-- The text can stand without quotes between delimiters. -/
def IsBare (d : Char) (s : List Char) : Prop :=
  (∀ c ∈ s, isContent d c = true) ∧ s.head? ≠ some '"'

/-- The texts of a record's fields. -/
def rowOf (r : Record) : Row := r.map fun f => String.ofList f.text

theorem IsWritable.mono {p q : List Char → Prop} {r : Record} (h : IsWritable p r)
    (hpq : ∀ f ∈ r, p f.text → q f.text) : IsWritable q r :=
  ⟨h.ne_nil, fun f hf hu => hpq f hf (h.bare_of_unquoted f hf hu), h.ne_blank⟩

@[simp] theorem doubled_nil : doubled [] = [] := rfl

theorem doubled_cons (c : Char) (s : List Char) :
    doubled (c :: s) = (if c = '"' then ['"', '"'] else [c]) ++ doubled s := by
  simp [doubled]

@[simp] theorem writtenRecord_singleton (d : Char) (f : Field) :
    writtenRecord d [f] = f.written := by
  simp [writtenRecord]

@[simp] theorem writtenRecord_cons_cons (d : Char) (f g : Field) (r : Record) :
    writtenRecord d (f :: g :: r) = f.written ++ d :: writtenRecord d (g :: r) := by
  simp [writtenRecord, List.intercalate_cons_cons]

/-! ## Fields -/

section

variable {d : Char}

theorem isContent_delimiter (d : Char) : isContent d d = false := by simp [isContent]

theorem isContent_of_isLineBreak {c : Char} (h : isLineBreak c = true) :
    isContent d c = false := by
  simp [isContent, h]

theorem isContent_quote (hd : d ≠ '"') : isContent d '"' = true := by
  simp [isContent, isLineBreak, Ne.symm hd]

theorem quotedPart_cons {c : Char} (hc : c ≠ '"') (r : List Char) :
    quotedPart (c :: r) = (c :: (quotedPart r).1, (quotedPart r).2) := by
  rw [quotedPart.eq_def]
  simp [hc]

theorem quotedPart_two_quotes (r : List Char) :
    quotedPart ('"' :: '"' :: r) = ('"' :: (quotedPart r).1, (quotedPart r).2) := by
  rw [quotedPart.eq_def]
  simp

theorem quotedPart_quote {r : List Char} (hr : r.head? ≠ some '"') :
    quotedPart ('"' :: r) = ([], r) := by
  rw [quotedPart.eq_def]
  cases r <;> simp_all

theorem quotedPart_doubled_append (s t : List Char) :
    quotedPart (doubled s ++ t) = (s ++ (quotedPart t).1, (quotedPart t).2) := by
  induction s with
  | nil => rfl
  | cons c s ih =>
    rw [doubled_cons]
    by_cases hc : c = '"'
    · subst hc
      simp [quotedPart_two_quotes, ih]
    · simp [quotedPart_cons hc, hc, ih]

theorem quotedPart_doubled (s : List Char) {t : List Char} (ht : t.head? ≠ some '"') :
    quotedPart (doubled s ++ '"' :: t) = (s, t) := by
  rw [quotedPart_doubled_append, quotedPart_quote ht, List.append_nil]

theorem field_written (hd : d ≠ '"') {f : Field} (hf : f.quoted = false → IsBare d f.text)
    {t : List Char} (ht : ∀ c ∈ t.head?, isContent d c = false) :
    field d (f.written ++ t) = (f, t) := by
  have hquote : t.head? ≠ some '"' := fun h => by
    simpa [isContent_quote hd] using ht '"' h
  obtain ⟨s, q⟩ := f
  cases q with
  | true =>
    have hw : Field.written ⟨s, true⟩ ++ t = '"' :: (doubled s ++ '"' :: t) := by
      simp [Field.written]
    rw [hw, field, if_pos rfl, quotedPart_doubled s hquote]
    simp only [takeWhile_eq_nil_of_head? ht, dropWhile_eq_self_of_head? ht, List.append_nil]
  | false =>
    obtain ⟨hs, hhead⟩ := hf rfl
    have htake : (s ++ t).takeWhile (isContent d) = s := takeWhile_append_of_head? hs ht
    have hdrop : (s ++ t).dropWhile (isContent d) = t := dropWhile_append_of_head? hs ht
    change field d (s ++ t) = (⟨s, false⟩, t)
    cases h : s ++ t with
    | nil =>
      obtain ⟨rfl, rfl⟩ := List.append_eq_nil_iff.mp h
      rfl
    | cons c r =>
      have hc : c ≠ '"' := by
        rintro rfl
        cases s with
        | nil =>
          obtain rfl : t = '"' :: r := h
          exact hquote rfl
        | cons a s =>
          obtain ⟨rfl, -⟩ := List.cons.inj h
          exact hhead rfl
      rw [field, if_neg hc, ← h, htake, hdrop]

/-! ## Records -/

theorem records_of_field_nil {s : List Char} {f : Field} (h : field d s = (f, [])) :
    records d s = [[f]] := by
  rw [records]
  split <;> simp_all

theorem records_of_field_cons {s r : List Char} {f : Field} {c : Char}
    (h : field d s = (f, c :: r)) :
    records d s =
      if c = d then consField f (records d r) else [f] :: records d (afterBreak c r) := by
  rw [records]
  split <;> simp_all

/-- The records behind the end of a record. -/
def recordsAfter (d : Char) : List Char → List Record
  | [] => []
  | c :: r => records d (afterBreak c r)

/-- The fields from a place on, up to the end of their record, and what follows them. -/
inductive RecordRead (d : Char) : List Char → Record → List Char → Prop where
  | last {s t : List Char} {f : Field} (hf : field d s = (f, t))
      (ht : ∀ c ∈ t.head?, isLineBreak c = true) : RecordRead d s [f] t
  | more {s t u : List Char} {f : Field} {r : Record} (hf : field d s = (f, d :: t))
      (h : RecordRead d t r u) : RecordRead d s (f :: r) u

theorem RecordRead.records_eq (hb : isLineBreak d = false) {s t : List Char} {r : Record}
    (h : RecordRead d s r t) : records d s = r :: recordsAfter d t := by
  induction h with
  | @last s t f hf ht =>
    cases t with
    | nil => exact records_of_field_nil hf
    | cons c u =>
      have hc : c ≠ d := fun h => by simp [← h, ht c rfl] at hb
      rw [records_of_field_cons hf, if_neg hc, recordsAfter]
  | more hf _ ih =>
    rw [records_of_field_cons hf, if_pos rfl, ih]
    rfl

theorem recordRead_writtenRecord (hd : d ≠ '"') {r : Record} (hr : r ≠ [])
    (hf : ∀ f ∈ r, f.quoted = false → IsBare d f.text) {t : List Char}
    (ht : ∀ c ∈ t.head?, isLineBreak c = true) : RecordRead d (writtenRecord d r ++ t) r t := by
  induction r with
  | nil => exact absurd rfl hr
  | cons f r ih =>
    have hf₁ := hf f List.mem_cons_self
    cases r with
    | nil =>
      rw [writtenRecord_singleton]
      exact .last (field_written hd hf₁ fun c hc => isContent_of_isLineBreak (ht c hc)) ht
    | cons g r =>
      have hfield : field d (f.written ++ d :: (writtenRecord d (g :: r) ++ t)) =
          (f, d :: (writtenRecord d (g :: r) ++ t)) :=
        field_written hd hf₁ fun c hc => by
          obtain rfl : d = c := Option.some.inj hc
          exact isContent_delimiter d
      rw [writtenRecord_cons_cons, List.append_assoc, List.cons_append]
      exact .more hfield (ih (List.cons_ne_nil g r) fun f' h => hf f' (List.mem_cons_of_mem f h))

/-! ## Rows -/

/-- A carriage return is a line end of its own only where no line feed follows. -/
theorem recordsAfter_lineEnd (e : LineEnd) {w : List Char}
    (hw : e = .carriageReturn → w.head? ≠ some '\n') :
    recordsAfter d (e.text ++ w) = records d w := by
  cases e with
  | lineFeed => cases w <;> rfl
  | carriageReturn =>
    cases w with
    | nil => rfl
    | cons c r =>
      have hc : c ≠ '\n' := by
        rintro rfl
        exact hw rfl rfl
      simp [LineEnd.text, recordsAfter, afterBreak, hc]
  | both => cases w <;> rfl

theorem rows_of_records {s : List Char} {r : Record} {rs : List Record} (hr : r ≠ [⟨[], false⟩])
    (h : records d s = r :: rs) :
    rows d s = rowOf r :: (rs.filter (!isBlankRecord ·)).map rowOf := by
  have hblank : isBlankRecord r = false := by simp [isBlankRecord, hr]
  simp [rows, h, hblank, rowOf]

theorem exists_writtenRecord_cons (d : Char) (f : Field) (r : Record) :
    ∃ v, writtenRecord d (f :: r) = f.written ++ v ∧ (r ≠ [] → ∃ u, v = d :: u) := by
  cases r with
  | nil => exact ⟨[], by simp, fun h => absurd rfl h⟩
  | cons g r => exact ⟨d :: writtenRecord d (g :: r), by simp, fun _ => ⟨_, rfl⟩⟩

/-- A record that can be written starts its line with a character of its own. -/
theorem IsWritable.exists_head (hb : isLineBreak d = false) {r : Record}
    (hr : IsWritable (IsBare d) r) :
    ∃ c u, writtenRecord d r = c :: u ∧ isLineBreak c = false := by
  obtain _ | ⟨⟨s, q⟩, r⟩ := r
  · exact absurd rfl hr.ne_nil
  obtain ⟨v, hv, hdelim⟩ := exists_writtenRecord_cons d ⟨s, q⟩ r
  rw [hv]
  cases q with
  | true => exact ⟨'"', doubled s ++ ['"'] ++ v, rfl, rfl⟩
  | false =>
    cases s with
    | nil =>
      have hr' : r ≠ [] := by
        rintro rfl
        exact hr.ne_blank rfl
      obtain ⟨u, rfl⟩ := hdelim hr'
      exact ⟨d, u, rfl, hb⟩
    | cons c s =>
      obtain ⟨hs, -⟩ := hr.bare_of_unquoted ⟨c :: s, false⟩ List.mem_cons_self rfl
      have hc := hs c List.mem_cons_self
      exact ⟨c, s ++ v, rfl, by simp_all [isContent]⟩

theorem IsWritten.head?_ne_lineFeed (hb : isLineBreak d = false) {rs : List Record}
    {w : List Char} (h : IsWritten d rs w) (hr : ∀ r ∈ rs, IsWritable (IsBare d) r) :
    w.head? ≠ some '\n' := by
  cases h with
  | nil => simp
  | last r =>
    obtain ⟨c, u, hw, hc⟩ := (hr r List.mem_cons_self).exists_head hb
    rintro h
    simp_all [isLineBreak]
  | line r e _ =>
    obtain ⟨c, u, hw, hc⟩ := (hr r List.mem_cons_self).exists_head hb
    rintro h
    simp_all [isLineBreak]

/-- Reading a written table gives its rows. -/
theorem IsWritten.rows_eq (hd : d ≠ '"') (hb : isLineBreak d = false) {rs : List Record}
    {w : List Char} (h : IsWritten d rs w) (hr : ∀ r ∈ rs, IsWritable (IsBare d) r) :
    rows d w = rs.map rowOf := by
  induction h with
  | nil => simp [rows, records_of_field_nil (s := []) (f := ⟨[], false⟩) rfl, isBlankRecord]
  | last r =>
    have hw := hr r List.mem_cons_self
    have hrecords := (recordRead_writtenRecord hd hw.ne_nil hw.bare_of_unquoted
      (t := []) (by simp)).records_eq hb
    rw [List.append_nil] at hrecords
    exact rows_of_records hw.ne_blank hrecords
  | @line r e rs w h ih =>
    have hw := hr r List.mem_cons_self
    have hrest := fun r' h' => hr r' (List.mem_cons_of_mem r h')
    have hrecords := (recordRead_writtenRecord hd hw.ne_nil hw.bare_of_unquoted
      (t := e.text ++ w) e.isLineBreak_head?).records_eq hb
    rw [recordsAfter_lineEnd e fun _ => h.head?_ne_lineFeed hb hrest] at hrecords
    rw [rows_of_records hw.ne_blank hrecords, List.map_cons, ← ih hrest]
    rfl

/-! ## Tables -/

/-- The line that names the delimiter. -/
def hintLine (d : Char) : List Char := ['s', 'e', 'p', '=', d]

theorem separatorHint?_hintLine (d : Char) : separatorHint? (hintLine d) = some d := by
  simp [hintLine, separatorHint?, dropWord?, sameLetter]

theorem takeHint_hintLine (hb : isLineBreak d = false) (w : List Char) :
    takeHint (hintLine d ++ '\n' :: w) = (some d, w) := by
  have hword : ∀ c ∈ hintLine d, (!isLineBreak c) = true := by
    simpa [hintLine, isLineBreak] using hb
  have hend : ∀ c ∈ ('\n' :: w).head?, (!isLineBreak c) = false := by simp [isLineBreak]
  have hline : firstLine (hintLine d ++ '\n' :: w) = hintLine d :=
    takeWhile_append_of_head? hword hend
  have hrest : afterFirstLine (hintLine d ++ '\n' :: w) = w := by
    rw [afterFirstLine, dropWhile_append_of_head? hword hend]
    cases w <;> rfl
  rw [takeHint, hline, separatorHint?_hintLine, hrest]

theorem dropByteOrderMark_eq_self {w : List Char} (h : w.head? ≠ some byteOrderMark) :
    dropByteOrderMark w = w := by
  cases w with
  | nil => rfl
  | cons c r =>
    have hc : c ≠ byteOrderMark := by
      rintro rfl
      exact h rfl
    simp [dropByteOrderMark, hc]

theorem takeHint_eq_none {w : List Char} (h : separatorHint? (firstLine w) = none) :
    takeHint w = (none, w) := by
  rw [takeHint, h]

/-- A written table is read back, be its delimiter named in front of it or given apart. -/
theorem table_of_isWritten (hd : d ≠ '"') (hb : isLineBreak d = false) {rs : List Record}
    {w : List Char} (hw : IsWritten d rs w) (hr : ∀ r ∈ rs, IsWritable (IsBare d) r) :
    table none (hintLine d ++ '\n' :: w) = rs.map rowOf ∧
      (w.head? ≠ some byteOrderMark → separatorHint? (firstLine w) = none →
        table (some d) w = rs.map rowOf) := by
  have hrows : rows d w = rs.map rowOf := hw.rows_eq hd hb hr
  constructor
  · have hmark : dropByteOrderMark (hintLine d ++ '\n' :: w) =
        hintLine d ++ '\n' :: w :=
      dropByteOrderMark_eq_self (by simp [hintLine, byteOrderMark])
    rw [table, hmark, takeHint_hintLine hb]
    exact hrows
  · intro hmark hhint
    rw [table, dropByteOrderMark_eq_self hmark, takeHint_eq_none hhint]
    exact hrows

end

theorem table_of_isWritten_space :
    table none (hintLine ' ' ++ '\n' ::
      ['"', 'a', ' ', '"', ' ', '\r', '\n', '"', '"', '\r', 'b', ' ', '"', '"', '"', '\n', '"']) =
        [["a ", ""], [""], ["b", "\"\n"]] ∧
      table (some ' ')
        ['"', 'a', ' ', '"', ' ', '\r', '\n', '"', '"', '\r', 'b', ' ', '"', '"', '"', '\n', '"'] =
          [["a ", ""], [""], ["b", "\"\n"]] := by
  have h := table_of_isWritten (d := ' ') (by decide) (by decide)
    (.line [⟨['a', ' '], true⟩, ⟨[], false⟩] .both
      (.line [⟨[], true⟩] .carriageReturn (.last [⟨['b'], false⟩, ⟨['"', '\n'], true⟩])))
    (by
      intro r hr
      simp only [List.mem_cons, List.not_mem_nil, or_false] at hr
      rcases hr with rfl | rfl | rfl
      all_goals exact ⟨by simp, by simp [IsBare, isContent, isLineBreak], by simp⟩)
  exact ⟨h.1, h.2 (by decide) (by decide)⟩

end Salvage.Csv
