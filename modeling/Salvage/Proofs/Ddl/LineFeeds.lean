import Salvage.Proofs.Ddl.Independence
import Salvage.Proofs.Ddl.Statements
import Salvage.Proofs.Text.LineFeed

/-! # Line feeds of a schema

Blanks separate what is read of a statement, and of a definition its name and its type. So with
other blanks in place of the line feeds the same statements are found, a body has the same
pieces, and a piece has the same name and type in front of the same text.
-/

namespace Salvage.Ddl

open Text

variable {b e n p r s t : List Char} {c : Char}

/-! ## Statements -/

theorem takeSome_breakLines {q : Char → Bool} (hq : ∀ c, q c = true → isBlank c = false)
    (he : Blanks e) (hne : e ≠ []) (s : List Char) :
    takeSome q (breakLines e s) = (takeSome q s).map fun x => (x.1, breakLines e x.2) := by
  obtain ⟨htake, hdrop⟩ := takeWhile_breakLines he hne hq s
  simp only [takeSome, htake, hdrop]
  split <;> rfl

theorem skipSomeBlanks_cons (c : Char) (s : List Char) :
    skipSomeBlanks (c :: s) = if isBlank c then some (skipBlanks (c :: s)) else none := by
  by_cases hc : isBlank c = true
  · simp [skipSomeBlanks, takeSome, skipBlanks, hc]
  · simp [skipSomeBlanks, takeSome, hc]

theorem readsLines_skipSomeBlanks (he : Blanks e) (hne : e ≠ []) :
    ReadsLines e skipSomeBlanks := by
  intro s
  have hskip := skipBlanks_breakLines he s
  cases s using lineFeed_induction with
  | nil => rfl
  | feed s =>
    obtain ⟨b, e, rfl⟩ := List.exists_cons_of_ne_nil hne
    rw [breakLines_lineFeed, List.cons_append] at hskip ⊢
    rw [skipSomeBlanks_cons, skipSomeBlanks_cons, if_pos (he b List.mem_cons_self),
      if_pos (by decide), hskip, Option.map_some]
  | cons c s hc =>
    rw [breakLines_cons hc] at hskip ⊢
    rw [skipSomeBlanks_cons, skipSomeBlanks_cons, hskip]
    split <;> rfl

theorem readsLines_dropWord? {word : List Char}
    (hword : ∀ a ∈ word, ∀ c, isBlank c = true → foldsTo a c = false) (he : Blanks e)
    (hne : e ≠ []) : ReadsLines e (dropWord? foldsTo word) := by
  induction word with
  | nil => exact fun s => rfl
  | cons a word ih =>
    obtain ⟨ha, hword⟩ := List.forall_mem_cons.mp hword
    intro s
    cases s using lineFeed_induction with
    | nil => rfl
    | feed s =>
      obtain ⟨b, e, rfl⟩ := List.exists_cons_of_ne_nil hne
      rw [breakLines_lineFeed, List.cons_append, dropWord?, dropWord?,
        ha b (he b List.mem_cons_self), ha '\n' (by decide)]
      rfl
    | cons c s hc =>
      rw [breakLines_cons hc, dropWord?, dropWord?, ih hword s]
      split <;> rfl

theorem readsLines_keyword? {word : String} (hword : word ∈ openingWords) (he : Blanks e)
    (hne : e ≠ []) : ReadsLines e (keyword? word) := by
  have hall : (openingWords.all fun word => word.toList.all fun a =>
      blankChars.all (!foldsTo a ·)) = true := by decide +kernel
  refine (readsLines_dropWord? (fun a ha c hc => ?_) he hne).bind (readsLines_skipSomeBlanks he hne)
  have ha := List.all_eq_true.mp (List.all_eq_true.mp hall word hword) a ha
  simpa using of_isBlank ha hc

theorem readsLines_keywords? (he : Blanks e) (hne : e ≠ []) : ReadsLines e keywords? := by
  have hword : ∀ {word}, word ∈ openingWords → ReadsLines e (keyword? word) := fun h =>
    readsLines_keyword? h he hne
  have hcondition : ReadsLines e condition? :=
    ((hword (by decide)).bind (hword (by decide))).bind (hword (by decide))
  exact ((hword (by decide)).bind (hword (by decide))).bind hcondition.getD

/-- What stands behind the blanks is no line feed. -/
theorem skipBlanks_breakLines_of_cons (he : Blanks e) (h : skipBlanks s = c :: t) :
    skipBlanks (breakLines e s) = c :: breakLines e t := by
  have hhead := head?_dropWhile (p := isBlank) s
  rw [skipBlanks] at h
  rw [h] at hhead
  have hc : c ≠ '\n' := by
    rintro rfl
    exact absurd (hhead _ rfl) (by decide)
  rw [skipBlanks_breakLines he, skipBlanks, h, breakLines_cons hc]

theorem namedOpening?_breakLines (he : Blanks e) (hne : e ≠ []) (s : List Char) :
    namedOpening? (breakLines e s) = (namedOpening? s).map fun x => (x.1, breakLines e x.2) := by
  rw [namedOpening?, takeSome_breakLines (fun _ => isBlank_eq_of_isTableNameChar) he hne,
    namedOpening?]
  cases takeSome isTableNameChar s with
  | none => rfl
  | some x =>
    obtain ⟨n, t⟩ := x
    simp only [Option.map_some, Option.bind_some]
    cases hu : skipBlanks t with
    | nil =>
      rw [skipBlanks_breakLines he, hu]
      rfl
    | cons c u =>
      rw [skipBlanks_breakLines_of_cons he hu]
      split <;> simp_all

theorem opening?_breakLines (he : Blanks e) (hne : e ≠ []) (s : List Char) :
    opening? (breakLines e s) = (opening? s).map fun x => (x.1, breakLines e x.2) := by
  rw [opening?, readsLines_keywords? he hne s, opening?]
  cases keywords? s with
  | none => rfl
  | some t => exact namedOpening?_breakLines he hne t

theorem statementEnd?_blank (hc : isBlank c = true) (t : List Char) :
    statementEnd? (c :: t) = none := by
  simp [statementEnd?, ne_of_isBlank hc (d := ')') (by decide)]

theorem readsLines_statementEnd? (he : Blanks e) (hne : e ≠ []) : ReadsLines e statementEnd? := by
  intro s
  cases s using lineFeed_induction with
  | nil => rfl
  | feed s =>
    obtain ⟨b, e, rfl⟩ := List.exists_cons_of_ne_nil hne
    rw [breakLines_lineFeed, List.cons_append, statementEnd?_blank (he b List.mem_cons_self),
      statementEnd?_blank (by decide)]
    rfl
  | cons c s hc =>
    rw [breakLines_cons hc]
    by_cases hclose : c = ')'
    · subst hclose
      simp only [statementEnd?]
      cases hu : skipBlanks s with
      | nil =>
        rw [skipBlanks_breakLines he, hu]
        rfl
      | cons d u =>
        rw [skipBlanks_breakLines_of_cons he hu]
        split <;> simp_all
    · simp [statementEnd?, hclose]

/-- The same statements are found, and their names are the same. -/
theorem findAll_createTable_breakLines (he : Blanks e) (hne : e ≠ []) (s : List Char) :
    createTable.findAll (breakLines e s) =
      (createTable.findAll s).map fun x => (x.1, breakLines e x.2) := by
  refine Pattern.findAll_breakLines (fun c t hc => createTable_run_blank hc t) (fun s => ?_) he s
  rw [createTable_run, opening?_breakLines he hne, createTable_run]
  cases opening? s with
  | none => rfl
  | some x =>
    obtain ⟨n, t⟩ := x
    simp only [Option.map_some, Option.bind_some]
    rw [upTo_breakLines (fun c t hc => statementEnd?_blank hc t) (readsLines_statementEnd? he hne)
      he hne, Option.map_map, Option.map_map]
    rfl

theorem body_subset (h : (n, b) ∈ createTable.findAll s) : b ⊆ s := by
  obtain ⟨t, r, ht, hrun⟩ := Pattern.exists_of_mem_findAll
    (fun hrun => (exists_of_run hrun).imp fun _ h => h.symm) h
  obtain ⟨u, hopen, hup⟩ := exists_of_createTable_run hrun
  obtain ⟨a, rfl, -⟩ := isDelimiter_closing.exists_of_opening? (by decide) hopen
  obtain ⟨v, rfl, -, -⟩ := exists_of_upTo hup
  exact fun c hc => ht.subset (by simp [hc])

/-! ## Pieces of a body -/

theorem splitOnP_append {α : Type*} {q : α → Bool} {e : List α} (he : ∀ c ∈ e, q c = false)
    (t : List α) : (e ++ t).splitOnP q = (t.splitOnP q).modifyHead (e ++ ·) := by
  obtain ⟨p, ps, hps⟩ := List.exists_cons_of_ne_nil (List.splitOnP_ne_nil q t)
  induction e with
  | nil => simp [hps]
  | cons c e ih =>
    obtain ⟨hc, he⟩ := List.forall_mem_cons.mp he
    rw [List.cons_append, List.splitOnP_cons_eq_if_modifyHead, if_neg (by simp [hc]), ih he, hps]
    rfl

theorem splitNaive_breakLines (he : Blanks e) (b : List Char) :
    splitNaive (breakLines e b) = (splitNaive b).map (breakLines e) := by
  have hcomma : ∀ c ∈ e, (c == ',') = false := fun c hc => by
    simpa using ne_of_isBlank (he c hc) (d := ',') (by decide)
  simp only [splitNaive, List.splitOn]
  induction b using lineFeed_induction with
  | nil => rfl
  | feed b ih =>
    obtain ⟨p, ps, hps⟩ := List.exists_cons_of_ne_nil (List.splitOnP_ne_nil (· == ',') b)
    rw [breakLines_lineFeed, splitOnP_append hcomma, ih, List.splitOnP_cons_eq_if_modifyHead,
      if_neg (by decide), hps]
    simp
  | cons c b hc ih =>
    obtain ⟨p, ps, hps⟩ := List.exists_cons_of_ne_nil (List.splitOnP_ne_nil (· == ',') b)
    rw [breakLines_cons hc, List.splitOnP_cons_eq_if_modifyHead,
      List.splitOnP_cons_eq_if_modifyHead, ih, hps]
    split
    · rfl
    · simp [breakLines_cons hc]

theorem mem_splitNaive (h : p ∈ splitNaive b) : ',' ∉ p ∧ p ⊆ b := by
  simp only [splitNaive, List.splitOn] at h
  induction b generalizing p with
  | nil =>
    obtain rfl := List.mem_singleton.mp h
    simp
  | cons c b ih =>
    obtain ⟨p', ps, hps⟩ := List.exists_cons_of_ne_nil (List.splitOnP_ne_nil (· == ',') b)
    rw [hps] at ih
    rw [List.splitOnP_cons_eq_if_modifyHead, hps] at h
    by_cases hc : (c == ',') = true
    · rw [if_pos hc] at h
      rcases List.mem_cons.mp h with rfl | h
      · simp
      · exact (ih h).imp_right fun h => List.subset_cons_of_subset c h
    · rw [if_neg hc] at h
      rcases List.mem_cons.mp h with rfl | h
      · obtain ⟨hnot, hsub⟩ := ih List.mem_cons_self
        have hne : ',' ≠ c := by
          rintro rfl
          exact hc rfl
        exact ⟨by simp [hne, hnot], List.cons_subset_cons c hsub⟩
      · exact (ih (List.mem_cons_of_mem p' h)).imp_right fun h => List.subset_cons_of_subset c h

/-! ## Columns -/

/-- The name and the type of a column as they are written, and the text behind them. -/
structure Heading where
  name : List Char
  type : List Char
  rest : List Char

/-- What is read of a segment in front of the flags. -/
def heading? (s : List Char) : Option Heading := do
  let (name, t) ← takeSome isNameChar s
  let t ← skipSomeBlanks t
  let (word, t) ← takeSome isTypeChar t
  let (numbers, rest) := (typeNumbers? t).getD ([], t)
  return ⟨name, word ++ numbers, rest⟩

/-- A name, blanks and a character of a type begin a column. -/
theorem exists_heading? (hne : n ≠ []) (hn : ∀ c ∈ n, isNameChar c = true) {g : List Char}
    (hgne : g ≠ []) (hg : Blanks g) {d : Char} (hd : isTypeChar d = true) (t : List Char) :
    ∃ h, heading? (n ++ (g ++ d :: t)) = some h ∧ h.name = n := by
  have hname : takeSome isNameChar (n ++ (g ++ d :: t)) = some (n, g ++ d :: t) := by
    refine takeSome_eq_some_iff.mpr ⟨rfl, hne, hn, ?_⟩
    obtain ⟨c, g, rfl⟩ := List.exists_cons_of_ne_nil hgne
    rintro a ⟨⟩
    cases ha : isNameChar c with
    | false => rfl
    | true => simpa [hg c List.mem_cons_self] using isBlank_eq_of_isNameChar ha
  have hgap : skipSomeBlanks (g ++ d :: t) = some (d :: t) := by
    refine skipSomeBlanks_eq_some_iff.mpr ⟨g, rfl, hgne, hg, ?_⟩
    rintro a ⟨⟩
    exact isBlank_eq_of_isTypeChar hd
  obtain ⟨x, hx⟩ : ∃ x, takeSome isTypeChar (d :: t) = some x := by simp [takeSome, hd]
  simp [heading?, hname, hgap, hx]

namespace Heading

def column (h : Heading) : Column where
  name := String.ofList (stripQuotes h.name)
  type := String.ofList (lower h.type)
  primaryKey := containsWord h.rest Flag.primaryKey.words
  notNull := containsWord h.rest Flag.notNull.words
  unique := containsWord h.rest Flag.unique.words

/-- The heading in a text with `e` in place of each line feed. -/
def breakLines (e : List Char) (h : Heading) : Heading where
  name := h.name
  type := h.type
  rest := Text.breakLines e h.rest

end Heading

theorem ofSegment?_eq_map (s : List Char) :
    Column.ofSegment? s = (heading? s).map Heading.column := by
  simp only [Column.ofSegment?, heading?, Option.bind_eq_bind]
  cases takeSome isNameChar s with
  | none => rfl
  | some x =>
    simp only [Option.bind_some]
    cases skipSomeBlanks x.2 with
    | none => rfl
    | some t =>
      simp only [Option.bind_some]
      cases takeSome isTypeChar t <;> rfl

theorem typeNumbers?_eq_none (hc : c ≠ '(') (s : List Char) : typeNumbers? (c :: s) = none := by
  simp [typeNumbers?, hc]

theorem secondNumber_eq (h : ',' ∉ s) : secondNumber s = ([], s) := by
  rw [secondNumber.eq_2]
  rintro r rfl
  exact h List.mem_cons_self

theorem typeNumbers?_blank (hc : isBlank c = true) (s : List Char) :
    typeNumbers? (c :: s) = none :=
  typeNumbers?_eq_none (ne_of_isBlank hc (by decide)) s

/-- A number of a type stands on one line. -/
theorem typeNumbers?_breakLines (he : Blanks e) (hne : e ≠ []) (h : ',' ∉ s) :
    typeNumbers? (breakLines e s) = (typeNumbers? s).map fun x => (x.1, breakLines e x.2) := by
  cases s using lineFeed_induction with
  | nil => rfl
  | feed s =>
    obtain ⟨b, e, rfl⟩ := List.exists_cons_of_ne_nil hne
    rw [breakLines_lineFeed, List.cons_append, typeNumbers?_blank (he b List.mem_cons_self),
      typeNumbers?_blank (by decide)]
    rfl
  | cons c s hc =>
    rw [breakLines_cons hc]
    by_cases hopen : c = '('
    · subst hopen
      have hdigit := takeSome_breakLines (q := Char.isDigit)
        (fun c hc => isBlank_eq_of_isTypeChar (isTypeChar_of_isDigit hc)) he hne s
      simp only [typeNumbers?, Option.bind_eq_bind, hdigit]
      cases hs : takeSome Char.isDigit s with
      | none => rfl
      | some x =>
        obtain ⟨ds, t⟩ := x
        obtain ⟨rfl, -⟩ := takeSome_eq_some_iff.mp hs
        have ht : ',' ∉ t := fun hmem => h (by simp [hmem])
        have ht' : ',' ∉ breakLines e t := fun hmem =>
          (mem_breakLines hmem).elim ht (he.notMem (by decide))
        simp only [Option.map_some, Option.bind_some, secondNumber_eq ht, secondNumber_eq ht']
        cases t using lineFeed_induction with
        | nil => rfl
        | feed t =>
          obtain ⟨b, e, rfl⟩ := List.exists_cons_of_ne_nil hne
          have hb := ne_of_isBlank (he b List.mem_cons_self) (d := ')') (by decide)
          simp [hb]
        | cons d t hd =>
          rw [breakLines_cons hd]
          split <;> simp_all
    · rw [typeNumbers?_eq_none hopen, typeNumbers?_eq_none hopen]
      rfl

theorem heading?_breakLines (he : Blanks e) (hne : e ≠ []) (h : ',' ∉ s) :
    heading? (breakLines e s) = (heading? s).map (Heading.breakLines e) := by
  simp only [heading?, Option.bind_eq_bind,
    takeSome_breakLines (fun _ => isBlank_eq_of_isNameChar) he hne]
  cases hname : takeSome isNameChar s with
  | none => rfl
  | some x =>
    obtain ⟨n, t⟩ := x
    obtain ⟨rfl, -⟩ := takeSome_eq_some_iff.mp hname
    simp only [Option.map_some, Option.bind_some, readsLines_skipSomeBlanks he hne t]
    cases hgap : skipSomeBlanks t with
    | none => rfl
    | some u =>
      obtain ⟨g, rfl, -⟩ := skipSomeBlanks_eq_some_iff.mp hgap
      simp only [Option.map_some, Option.bind_some,
        takeSome_breakLines (fun _ => isBlank_eq_of_isTypeChar) he hne]
      cases htype : takeSome isTypeChar u with
      | none => rfl
      | some y =>
        obtain ⟨w, v⟩ := y
        obtain ⟨rfl, -⟩ := takeSome_eq_some_iff.mp htype
        have hv : ',' ∉ v := fun hmem => h (by simp [hmem])
        simp only [Option.map_some, Option.bind_some, typeNumbers?_breakLines he hne hv]
        cases typeNumbers? v <;> rfl

end Salvage.Ddl
