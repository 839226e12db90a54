import Mathlib.Data.List.TakeWhile
import Mathlib.Logic.ExistsUnique
import Salvage.Proofs.Csv.Written

/-! # The grammar of tables

A text is records with line ends between them, a record is fields with delimiters between
them, and a field is bare or begins with a quoted part. A quoted part that is not closed can
only end the text. Every text can be read in this way and in no other, and its rows are what
that reading says.
-/

namespace Salvage.Csv

open Text

variable {d : Char} {s t u : List Char}

/-- How a field stands in a text. -/
inductive FieldForm where
  | bare (text : List Char)
  /-- A quoted part, and the text from its closing quote to the end of the field. -/
  | closed (inner tail : List Char)
  | unclosed (inner : List Char)
deriving DecidableEq, Repr

namespace FieldForm

def text : FieldForm → List Char
  | bare s => s
  | closed inner tail => '"' :: (doubled inner ++ '"' :: tail)
  | unclosed inner => '"' :: doubled inner

def field : FieldForm → Field
  | bare s => ⟨s, false⟩
  | closed inner tail => ⟨inner ++ tail, true⟩
  | unclosed inner => ⟨inner, true⟩

def isUnclosed : FieldForm → Bool
  | unclosed _ => true
  | _ => false

/-- What stands outside the quoted part does not end the field, and begins with no quote. -/
def WellFormed (d : Char) : FieldForm → Prop
  | bare s => IsBare d s
  | closed _ tail => IsBare d tail
  | unclosed _ => True

end FieldForm

/-- Some fields, of which only the last one may be unclosed, and only where the text ends. -/
inductive IsRecord (d : Char) (atEnd : Bool) : List FieldForm → Prop where
  | last {f : FieldForm} (hf : f.WellFormed d) (hu : f.isUnclosed = true → atEnd = true) :
      IsRecord d atEnd [f]
  | more {f : FieldForm} {r : List FieldForm} (hf : f.WellFormed d) (hu : f.isUnclosed = false)
      (h : IsRecord d atEnd r) : IsRecord d atEnd (f :: r)

def recordText (d : Char) (r : List FieldForm) : List Char :=
  [d].intercalate (r.map FieldForm.text)

/-- Records with the line ends between them. -/
inductive Reading where
  | last (r : List FieldForm)
  | line (r : List FieldForm) (e : LineEnd) (rest : Reading)
deriving DecidableEq, Repr

namespace Reading

def text (d : Char) : Reading → List Char
  | last r => recordText d r
  | line r e rest => recordText d r ++ (e.text ++ rest.text d)

def records : Reading → List (List FieldForm)
  | last r => [r]
  | line r _ rest => r :: rest.records

/-- Only the last record may end unclosed, and a carriage return in front of a line feed is no
line end of its own. -/
inductive WellFormed (d : Char) : Reading → Prop where
  | last {r : List FieldForm} (hr : IsRecord d true r) : WellFormed d (last r)
  | line {r : List FieldForm} {e : LineEnd} {rest : Reading} (hr : IsRecord d false r)
      (he : e = .carriageReturn → (rest.text d).head? ≠ some '\n') (h : WellFormed d rest) :
      WellFormed d (line r e rest)

/-- The rows that the reading says: the contents of all fields, without the records that
are one bare field and empty. -/
def rows (b : Reading) : List Row :=
  (b.records.filter (· ≠ [.bare []])).map fun r => r.map fun f => String.ofList f.field.text

end Reading

/-! ## Fields -/

theorem quotedPart_doubled_end (s : List Char) : quotedPart (doubled s) = (s, []) := by
  simpa [quotedPart] using quotedPart_doubled_append s []

/-- A text behind an opening quote has a closing quote that no quote follows, or none at all. -/
theorem exists_doubled (s : List Char) :
    (∃ i, s = doubled i) ∨ ∃ i t, s = doubled i ++ '"' :: t ∧ t.head? ≠ some '"' := by
  fun_induction quotedPart s with
  | case1 => exact .inl ⟨[], rfl⟩
  | case2 t ih =>
    rcases ih with ⟨i, rfl⟩ | ⟨i, u, rfl, hu⟩
    · exact .inl ⟨'"' :: i, rfl⟩
    · exact .inr ⟨'"' :: i, u, rfl, hu⟩
  | case3 t ht =>
    refine .inr ⟨[], t, rfl, fun h => ?_⟩
    obtain ⟨u, rfl⟩ := List.head?_eq_some_iff.mp h
    exact ht u rfl
  | case4 c t hc ih =>
    rcases ih with ⟨i, rfl⟩ | ⟨i, u, rfl, hu⟩
    · exact .inl ⟨c :: i, by simp [doubled_cons, hc]⟩
    · exact .inr ⟨c :: i, u, by simp [doubled_cons, hc], hu⟩

namespace FieldForm

variable {f g : FieldForm}

/-- A field ends where its delimiter or line end stands. -/
theorem field_text_append (hd : d ≠ '"') (hf : f.WellFormed d) (hu : f.isUnclosed = true → t = [])
    (ht : ∀ c ∈ t.head?, isContent d c = false) : Csv.field d (f.text ++ t) = (f.field, t) := by
  cases f with
  | bare s => exact field_written hd (f := ⟨s, false⟩) (fun _ => hf) ht
  | closed inner tail =>
    obtain ⟨htail, hhead⟩ := hf
    have hquote : (tail ++ t).head? ≠ some '"' := by
      cases tail with
      | nil => exact fun h => by simpa [isContent_quote hd] using ht '"' h
      | cons c tail => simpa using hhead
    have htext : (closed inner tail).text ++ t = '"' :: (doubled inner ++ '"' :: (tail ++ t)) := by
      simp [text]
    rw [htext, Csv.field, if_pos rfl, quotedPart_doubled inner hquote]
    simp only [takeWhile_append_of_head? htail ht, dropWhile_append_of_head? htail ht, field]
  | unclosed inner =>
    obtain rfl := hu rfl
    rw [List.append_nil, text, Csv.field, if_pos rfl, quotedPart_doubled_end]
    simp [field]

/-- Two forms of one field with one text are the same. -/
theorem eq_of_text_eq (hf : f.WellFormed d) (hg : g.WellFormed d) (htext : f.text = g.text)
    (hfield : f.field = g.field) : f = g := by
  cases f with
  | bare s =>
    cases g with
    | bare t => exact congrArg bare htext
    | _ => simp [field] at hfield
  | closed i a =>
    have ha := quotedPart_doubled i hf.2
    cases g with
    | bare t => simp [field] at hfield
    | closed j b =>
      rw [List.cons.inj htext |>.2, quotedPart_doubled j hg.2] at ha
      obtain ⟨rfl, rfl⟩ := Prod.mk.inj ha
      rfl
    | unclosed j =>
      rw [List.cons.inj htext |>.2, quotedPart_doubled_end] at ha
      obtain ⟨rfl, rfl⟩ := Prod.mk.inj ha
      simp [text] at htext
  | unclosed i =>
    have ha := quotedPart_doubled_end i
    cases g with
    | bare t => simp [field] at hfield
    | closed j b =>
      rw [List.cons.inj htext |>.2, quotedPart_doubled j hg.2] at ha
      obtain ⟨rfl, rfl⟩ := Prod.mk.inj ha
      simp [text] at htext
    | unclosed j =>
      rw [List.cons.inj htext |>.2, quotedPart_doubled_end] at ha
      obtain ⟨rfl, -⟩ := Prod.mk.inj ha
      rfl

/-- A text begins with one field only. -/
theorem text_append_inj (hd : d ≠ '"') (hf : f.WellFormed d) (hg : g.WellFormed d)
    (hfu : f.isUnclosed = true → t = []) (hgu : g.isUnclosed = true → u = [])
    (ht : ∀ c ∈ t.head?, isContent d c = false) (hu : ∀ c ∈ u.head?, isContent d c = false)
    (h : f.text ++ t = g.text ++ u) : f = g ∧ t = u := by
  have hread := field_text_append hd hf hfu ht
  rw [h, field_text_append hd hg hgu hu] at hread
  obtain ⟨hfield, rfl⟩ := Prod.mk.inj hread
  exact ⟨eq_of_text_eq hf hg (List.append_cancel_right h) hfield.symm, rfl⟩

/-- Every text begins with a field, and the field ends at a delimiter, a line end or with
the text. -/
theorem exists_text_append (d : Char) (s : List Char) :
    ∃ (f : FieldForm) (t : List Char), s = f.text ++ t ∧ f.WellFormed d ∧
      (f.isUnclosed = true → t = []) ∧ ∀ c ∈ t.head?, isContent d c = false := by
  have hcontent (u : List Char) (c : Char) (hc : c ∈ u.takeWhile (isContent d)) :
      isContent d c = true := List.mem_takeWhile_imp hc
  have hbare {u : List Char} (hu : u.head? ≠ some '"') : IsBare d (u.takeWhile (isContent d)) := by
    refine ⟨hcontent u, fun h => hu ?_⟩
    cases u with
    | nil => simp at h
    | cons c u =>
      by_cases hc : isContent d c = true
      · simpa [hc] using h
      · simp [hc] at h
  by_cases hs : s.head? = some '"'
  · obtain ⟨r, rfl⟩ := List.head?_eq_some_iff.mp hs
    rcases exists_doubled r with ⟨i, rfl⟩ | ⟨i, u, rfl, hu⟩
    · exact ⟨unclosed i, [], by simp [text], trivial, fun _ => rfl, by simp⟩
    · refine ⟨closed i (u.takeWhile (isContent d)), u.dropWhile (isContent d), ?_, hbare hu,
        by simp [isUnclosed], head?_dropWhile u⟩
      simp [text]
  · exact ⟨bare (s.takeWhile (isContent d)), s.dropWhile (isContent d), by simp [text], hbare hs,
      by simp [isUnclosed], head?_dropWhile s⟩

end FieldForm

/-! ## Records -/

section

variable {r r' : List FieldForm} {f : FieldForm} {atEnd atEnd' : Bool}

theorem recordText_singleton (d : Char) (f : FieldForm) : recordText d [f] = f.text := by
  simp [recordText]

theorem recordText_cons (d : Char) (f : FieldForm) (hr : r ≠ []) :
    recordText d (f :: r) = f.text ++ d :: recordText d r := by
  obtain ⟨g, r, rfl⟩ := List.exists_cons_of_ne_nil hr
  simp [recordText, List.intercalate_cons_cons]

theorem IsRecord.ne_nil (h : IsRecord d atEnd r) : r ≠ [] := by
  cases h <;> simp

theorem isContent_head?_delimiter (d : Char) (s : List Char) :
    ∀ c ∈ (d :: s).head?, isContent d c = false := by
  simp [isContent_delimiter]

theorem IsRecord.recordRead (hd : d ≠ '"') (h : IsRecord d atEnd r) (hend : atEnd = true → t = [])
    (ht : ∀ c ∈ t.head?, isLineBreak c = true) :
    RecordRead d (recordText d r ++ t) (r.map FieldForm.field) t := by
  induction h with
  | last hf hu =>
    rw [recordText_singleton]
    exact .last (FieldForm.field_text_append hd hf (fun h => hend (hu h))
      fun c hc => isContent_of_isLineBreak (ht c hc)) ht
  | more hf hu h ih =>
    rw [recordText_cons d _ h.ne_nil, List.append_assoc, List.cons_append]
    exact .more (FieldForm.field_text_append hd hf (by simp [hu])
      (isContent_head?_delimiter d _)) ih

/-- A text begins with one record only. -/
theorem IsRecord.text_append_inj (hd : d ≠ '"') (hb : isLineBreak d = false)
    (h : IsRecord d atEnd r) (h' : IsRecord d atEnd' r') (hend : atEnd = true → t = [])
    (hend' : atEnd' = true → u = []) (ht : ∀ c ∈ t.head?, isLineBreak c = true)
    (hu : ∀ c ∈ u.head?, isLineBreak c = true)
    (htext : recordText d r ++ t = recordText d r' ++ u) : r = r' ∧ t = u := by
  have hcontent {v : List Char} (hv : ∀ c ∈ v.head?, isLineBreak c = true) :
      ∀ c ∈ v.head?, isContent d c = false := fun c hc => isContent_of_isLineBreak (hv c hc)
  have hdelim {v w : List Char} (hv : ∀ c ∈ v.head?, isLineBreak c = true) : v ≠ d :: w := by
    rintro rfl
    simp [hv d rfl] at hb
  induction h generalizing r' with
  | last hf hfu =>
    have hfu := fun h => hend (hfu h)
    cases h' with
    | last hg hgu =>
      simp only [recordText_singleton] at htext
      obtain ⟨rfl, rfl⟩ := FieldForm.text_append_inj hd hf hg hfu (fun h => hend' (hgu h))
        (hcontent ht) (hcontent hu) htext
      exact ⟨rfl, rfl⟩
    | more hg hgu h' =>
      rw [recordText_singleton, recordText_cons d _ h'.ne_nil, List.append_assoc,
        List.cons_append] at htext
      obtain ⟨-, rfl⟩ := FieldForm.text_append_inj hd hf hg hfu (by simp [hgu]) (hcontent ht)
        (isContent_head?_delimiter d _) htext
      exact absurd rfl (hdelim ht)
  | more hf hfu h ih =>
    rw [recordText_cons d _ h.ne_nil, List.append_assoc, List.cons_append] at htext
    cases h' with
    | last hg hgu =>
      rw [recordText_singleton] at htext
      obtain ⟨-, rfl⟩ := FieldForm.text_append_inj hd hf hg (by simp [hfu])
        (fun h => hend' (hgu h)) (isContent_head?_delimiter d _) (hcontent hu) htext
      exact absurd rfl (hdelim hu)
    | more hg hgu h' =>
      rw [recordText_cons d _ h'.ne_nil, List.append_assoc, List.cons_append] at htext
      obtain ⟨rfl, hrest⟩ := FieldForm.text_append_inj hd hf hg (by simp [hfu]) (by simp [hgu])
        (isContent_head?_delimiter d _) (isContent_head?_delimiter d _) htext
      obtain ⟨rfl, rfl⟩ := ih h' (List.cons.inj hrest).2
      exact ⟨rfl, rfl⟩

end

/-! ## Readings -/

theorem LineEnd.text_append_inj {e e' : LineEnd}
    (ht : e = .carriageReturn → t.head? ≠ some '\n')
    (hu : e' = .carriageReturn → u.head? ≠ some '\n') (h : e.text ++ t = e'.text ++ u) :
    e = e' ∧ t = u := by
  cases e <;> cases e' <;> simp_all [LineEnd.text, eq_comm]

/-- A line break character begins a line end. -/
theorem LineEnd.exists_of_isLineBreak {c : Char} (hc : isLineBreak c = true) (s : List Char) :
    ∃ (e : LineEnd) (t : List Char), c :: s = e.text ++ t ∧ t.length ≤ s.length ∧
      (e = .carriageReturn → t.head? ≠ some '\n') := by
  simp only [isLineBreak, Bool.or_eq_true, beq_iff_eq] at hc
  rcases hc with rfl | rfl
  · by_cases hs : s.head? = some '\n'
    · obtain ⟨t, rfl⟩ := List.head?_eq_some_iff.mp hs
      exact ⟨.both, t, rfl, by simp, by simp⟩
    · exact ⟨.carriageReturn, s, rfl, Nat.le_refl _, fun _ => hs⟩
  · exact ⟨.lineFeed, s, rfl, Nat.le_refl _, by simp⟩

namespace Reading

variable {a b : Reading}

/-- Puts a field in front of the first record. -/
def consField (f : FieldForm) : Reading → Reading
  | last r => last (f :: r)
  | line r e rest => line (f :: r) e rest

theorem WellFormed.consField {f : FieldForm} (hf : f.WellFormed d) (hu : f.isUnclosed = false)
    (h : b.WellFormed d) :
    (b.consField f).WellFormed d ∧ (b.consField f).text d = f.text ++ d :: b.text d := by
  cases h with
  | last hr => exact ⟨.last (.more hf hu hr), recordText_cons d f hr.ne_nil⟩
  | line hr he h =>
    refine ⟨.line (.more hf hu hr) he h, ?_⟩
    simp [Reading.consField, text, recordText_cons d f hr.ne_nil]

theorem exists_wellFormed (d : Char) (s : List Char) :
    ∃ b : Reading, b.WellFormed d ∧ b.text d = s := by
  induction hn : s.length using Nat.strong_induction_on generalizing s with
  | h n ih =>
    subst hn
    obtain ⟨f, t, rfl, hf, hu, ht⟩ := FieldForm.exists_text_append d s
    cases t with
    | nil => exact ⟨last [f], .last (.last hf fun _ => rfl), by simp [text, recordText]⟩
    | cons c t =>
      have hclosed : f.isUnclosed = false := by simpa using hu
      by_cases hc : c = d
      · obtain ⟨b, hfor, rfl⟩ := ih t.length (by simp; omega) t rfl
        obtain ⟨hfor, htext⟩ := hfor.consField hf hclosed
        exact ⟨_, hfor, hc ▸ htext⟩
      · have hbreak : isLineBreak c = true := by simpa [isContent, hc] using ht c rfl
        obtain ⟨e, u, hsplit, hle, he⟩ := LineEnd.exists_of_isLineBreak hbreak t
        obtain ⟨b, hfor, rfl⟩ := ih u.length (by simp; omega) u rfl
        refine ⟨line [f] e b, .line (.last hf (by simp [hclosed])) he hfor, ?_⟩
        rw [text, recordText_singleton, hsplit]

theorem WellFormed.eq_of_text_eq (hd : d ≠ '"') (hb : isLineBreak d = false) (ha : a.WellFormed d)
    (h : b.WellFormed d) (htext : a.text d = b.text d) : a = b := by
  induction ha generalizing b with
  | last hr =>
    cases h with
    | last hr' =>
      obtain ⟨rfl, -⟩ := hr.text_append_inj hd hb hr' (t := []) (u := []) (by simp) (by simp)
        (by simp) (by simp) (by simpa [text] using htext)
      rfl
    | @line _ e' _ hr' he' h =>
      obtain ⟨-, hnil⟩ := hr.text_append_inj hd hb hr' (t := []) (by simp) (by simp) (by simp)
        e'.isLineBreak_head? (by simpa [text] using htext)
      cases e' <;> simp [LineEnd.text] at hnil
  | @line _ e _ hr he _ ih =>
    cases h with
    | last hr' =>
      obtain ⟨-, hnil⟩ := hr.text_append_inj hd hb hr' (u := []) (by simp) (by simp)
        e.isLineBreak_head? (by simp) (by simpa [text] using htext)
      cases e <;> simp [LineEnd.text] at hnil
    | @line _ e' _ hr' he' h =>
      obtain ⟨rfl, hrest⟩ := hr.text_append_inj hd hb hr' (by simp) (by simp)
        e.isLineBreak_head? e'.isLineBreak_head? htext
      obtain ⟨rfl, hnext⟩ := LineEnd.text_append_inj he he' hrest
      rw [ih h hnext]

theorem WellFormed.records_text (hd : d ≠ '"') (hb : isLineBreak d = false) (h : b.WellFormed d) :
    Csv.records d (b.text d) = b.records.map (·.map FieldForm.field) := by
  induction h with
  | last hr =>
    have hread := hr.recordRead hd (t := []) (by simp) (by simp)
    rw [List.append_nil] at hread
    exact hread.records_eq hb
  | @line r e rest hr he _ ih =>
    have hread := hr.recordRead hd (t := e.text ++ rest.text d) (by simp) e.isLineBreak_head?
    rw [text, hread.records_eq hb, recordsAfter_lineEnd e he, ih, records, List.map_cons]

theorem isBlankRecord_map_field (r : List FieldForm) :
    isBlankRecord (r.map FieldForm.field) = decide (r = [.bare []]) := by
  rcases r with _ | ⟨f, _ | ⟨g, r⟩⟩
  · rfl
  · cases f <;> simp [isBlankRecord, FieldForm.field, beq_eq_decide]
  · simp [isBlankRecord]

theorem WellFormed.rows_text (hd : d ≠ '"') (hb : isLineBreak d = false) (h : b.WellFormed d) :
    Csv.rows d (b.text d) = b.rows := by
  rw [Csv.rows, h.records_text hd hb, rows, List.filter_map, List.map_map]
  simp [Function.comp_def, isBlankRecord_map_field]

/-- A text has one reading, and its rows are those of that reading. -/
theorem existsUnique_wellFormed (hd : d ≠ '"') (hb : isLineBreak d = false) (s : List Char) :
    (∃! b : Reading, b.WellFormed d ∧ b.text d = s) ∧
      ∀ b : Reading, b.WellFormed d → b.text d = s → Csv.rows d s = b.rows := by
  obtain ⟨b, hfor, htext⟩ := exists_wellFormed d s
  refine ⟨⟨b, ⟨hfor, htext⟩, fun a ha => ?_⟩, fun a ha hs => ?_⟩
  · exact ha.1.eq_of_text_eq hd hb hfor (ha.2.trans htext.symm)
  · rw [← hs, ha.rows_text hd hb]

theorem existsUnique_wellFormed_semicolon :
    (∃! b : Reading, b.WellFormed ';' ∧ b.text ';' =
        ['"', '"', '"', '"', 'x', '\r', '\n', '\r', ';', '"', '\n']) ∧
      Csv.rows ';' ['"', '"', '"', '"', 'x', '\r', '\n', '\r', ';', '"', '\n'] =
        [["\"x"], ["", "\n"]] := by
  obtain ⟨hunique, hrows⟩ := existsUnique_wellFormed (d := ';') (by decide) (by decide)
    ['"', '"', '"', '"', 'x', '\r', '\n', '\r', ';', '"', '\n']
  have hempty : FieldForm.WellFormed ';' (.bare []) := ⟨by simp, by simp⟩
  have hreading : WellFormed ';' (line [.closed ['"'] ['x']] .both
      (line [.bare []] .carriageReturn (last [.bare [], .unclosed ['\n']]))) :=
    .line (.last ⟨by simp [isContent, isLineBreak], by simp⟩ (by decide)) (by decide)
      (.line (.last hempty (by decide)) (by decide)
        (.last (.more hempty rfl (.last trivial (by decide)))))
  exact ⟨hunique, hrows _ hreading rfl⟩

end Reading

end Salvage.Csv
