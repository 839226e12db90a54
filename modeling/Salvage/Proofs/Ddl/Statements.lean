import Salvage.Proofs.Ddl.Written

/-! # Written statements

A written schema is a sequence of statements that create tables. A statement is found as it
is written, because no semicolon stands in a body. What is left to show for a way to split
bodies is that it gives the columns of each body back.
-/

namespace Salvage.Ddl

open Text

/-! ## The text of a schema -/

/-- A character of a clause that is no comma and no parenthesis. -/
def isPlain (c : Char) : Bool := isWordStart c || c.isDigit || isBlank c

/-- The text has commas inside parentheses only, where `depth` of them are open around it,
and closes each one that is open. -/
def isEnclosed (depth : ℕ) : List Char → Bool
  | [] => depth == 0
  | c :: s =>
    if c = '(' then isEnclosed (depth + 1) s
    else if c = ')' then depth != 0 && isEnclosed (depth - 1) s
    else if c = ',' then depth != 0 && isEnclosed depth s
    else isPlain c && isEnclosed depth s

/-- A clause about a table as a whole. The naive split asks for one without commas. -/
def IsClause (mode : SplitMode) (s : List Char) : Prop :=
  constrainsTable s = true ∧
    match mode with
    | .naive => ',' ∉ s ∧ ';' ∉ s
    | .parenDepth => isEnclosed 0 s = true

/-- What stands between two commas, and the columns that it defines. The text of a column
has the property `ok`. -/
inductive IsDefinition (ok : List Char → Prop) (mode : SplitMode) :
    List Char → List Column → Prop where
  | column {g s h : List Char} {c : Column} (hg : Spacing g) (hs : Defines mode s c) (hok : ok s)
      (hh : Spacing h) : IsDefinition ok mode (g ++ (s ++ h)) [c]
  | clause {g s h : List Char} (hg : Spacing g) (hs : IsClause mode s) (hh : Spacing h) :
      IsDefinition ok mode (g ++ (s ++ h)) []

inductive IsBody (ok : List Char → Prop) (mode : SplitMode) :
    List Char → List Column → Prop where
  | last {p : List Char} {cs : List Column} (h : IsDefinition ok mode p cs) : IsBody ok mode p cs
  | more {p b : List Char} {cs cs' : List Column} (h : IsDefinition ok mode p cs)
      (hb : IsBody ok mode b cs') : IsBody ok mode (p ++ ',' :: b) (cs ++ cs')

inductive IsStatement (ok : List Char → Prop) (mode : SplitMode) : List Char → Table → Prop where
  | mk {n w s b g : List Char} {cs : List Column} (hne : n ≠ [])
      (hn : n.all isPlainNameChar = true) (hw : IsWrapped n w) (hs : IsOpening w s)
      (hb : IsBody ok mode b cs) (hg : Blanks g) :
      IsStatement ok mode (s ++ (b ++ ')' :: (g ++ [';']))) ⟨String.ofList n, cs⟩

/-- The text holds statements that create the tables, with blanks around them. -/
inductive IsWritten (ok : List Char → Prop) (mode : SplitMode) :
    List Char → List Table → Prop where
  | nil {g : List Char} (hg : Blanks g) : IsWritten ok mode g []
  | cons {g s r : List Char} {t : Table} {ts : List Table} (hg : Blanks g)
      (hs : IsStatement ok mode s t) (hr : IsWritten ok mode r ts) :
      IsWritten ok mode (g ++ (s ++ r)) (t :: ts)

variable {b g h k n p r s t w x : List Char} {c : Char} {column : Column} {cs : List Column}
  {mode : SplitMode} {ok : List Char → Prop}

/-- A single statement, and blanks in one place only. -/
theorem isWritten_openingText (hb : IsBody ok mode b cs) :
    IsWritten ok mode (openingText ['t'] ++ (b ++ [')', ';'])) [⟨String.ofList ['t'], cs⟩] := by
  have hs : IsStatement ok mode (openingText ['t'] ++ (b ++ [')', ';']))
      ⟨String.ofList ['t'], cs⟩ :=
    .mk (g := []) (by simp) (by decide) .bare (isOpening_openingText ['t']) hb (by simp [Blanks])
  have h := IsWritten.cons (g := []) (by simp [Blanks]) hs (.nil (g := []) (by simp [Blanks]))
  rwa [List.nil_append, List.append_nil] at h

theorem IsDefinition.of_defines (hs : Defines mode s column) (hok : ok s) :
    IsDefinition ok mode s [column] := by
  have h : IsDefinition ok mode ([] ++ (s ++ [])) [column] :=
    .column (by simp [Spacing]) hs hok (by simp [Spacing])
  rwa [List.nil_append, List.append_nil] at h

theorem defines_cons (hn : IsIdentifier n) (hc : isSpacing c = true) (hw : IsIdentifier w) :
    Defines mode (n ++ c :: w) (.written n w []) := by
  have h : Defines mode (n ++ ([c] ++ (w ++ ([] ++ [])))) (.written n (w ++ []) []) :=
    .mk hn .bare (by simpa [Spacing] using hc) (by simp) hw .none .nil
  simpa using h

/-! ## Statements are found -/

theorem isEnclosed_semicolon_notMem {depth : ℕ} (h : isEnclosed depth s = true) : ';' ∉ s := by
  induction s generalizing depth with
  | nil => exact List.not_mem_nil
  | cons c s ih =>
    simp only [isEnclosed] at h
    have hne : ';' ≠ c := by
      rintro rfl
      revert h
      simp [show isPlain ';' = false by decide]
    have hs : ';' ∉ s := by
      split_ifs at h
      · exact ih h
      · exact ih (Bool.and_eq_true_iff.mp h).2
      · exact ih (Bool.and_eq_true_iff.mp h).2
      · exact ih (Bool.and_eq_true_iff.mp h).2
    simp [hne, hs]

theorem Defines.notMem (hs : Defines mode s column) (hname : isNameChar c = false)
    (hspacing : isSpacing c = false) (hx : ∀ x, IsSuffix mode x → c ∉ x) : c ∉ s := by
  have htype : isTypeChar c = false := by
    cases h : isTypeChar c with
    | false => rfl
    | true => simp [isNameChar_of_isTypeChar h] at hname
  cases hs with
  | @mk n w g y x t fs hn hw hg _ hy hx' ht =>
    simp only [List.mem_append, not_or]
    refine ⟨fun h => ?_, fun h => ?_, fun h => ?_, hx x hx', fun h => ?_⟩
    · simp [hw.isNameChar hn.isPlainNameChar c h] at hname
    · simp [hg c h] at hspacing
    · simp [hy.all c h] at htype
    · rcases ht.isAlpha_or_isSpacing c h with halpha | h
      · simp [isTypeChar, Char.isAlphanum, halpha] at htype
      · simp [h] at hspacing

theorem IsDefinition.semicolon_notMem (h : IsDefinition ok mode p cs) : ';' ∉ p := by
  have hgap : ∀ {w}, Spacing w → ';' ∉ w := fun hw => hw.blanks.notMem (by decide)
  cases h with
  | column hg hs _ hh =>
    have hs' := hs.notMem (c := ';') (by decide) (by decide) fun x hx hc => by
      rcases hx.mem hc with h | h | h | h | h <;> revert h <;> decide
    simp [hgap hg, hs', hgap hh]
  | @clause g s h hg hs hh =>
    have hs' : ';' ∉ s := by
      cases mode with
      | naive => exact hs.2.2
      | parenDepth => exact isEnclosed_semicolon_notMem hs.2
    simp [hgap hg, hs', hgap hh]

theorem IsBody.semicolon_notMem (h : IsBody ok mode b cs) : ';' ∉ b := by
  induction h with
  | last h => exact h.semicolon_notMem
  | more h _ ih => simp [h.semicolon_notMem, ih]

theorem IsDefinition.ne_nil (h : IsDefinition ok mode p cs) : p ≠ [] := by
  cases h with
  | column _ hs =>
    obtain ⟨⟨c, hc, -⟩, -⟩ := hs.tight
    simp [List.ne_nil_of_mem (List.mem_of_mem_head? hc)]
  | @clause g s h _ hs =>
    have hne : s ≠ [] := by
      rintro rfl
      exact absurd hs.1 (by decide)
    simp [hne]

theorem IsBody.ne_nil (h : IsBody ok mode b cs) : b ≠ [] := by
  cases h with
  | last h => exact h.ne_nil
  | more => simp

/-- No statement begins with a blank. -/
theorem createTable_run_blank (hc : isBlank c = true) (t : List Char) :
    createTable.run (c :: t) = none := by
  rw [createTable_run, opening?_blank hc, Option.bind_none]

/-- The name of a statement is read with its quotes. -/
theorem IsOpening.createTable_run_wrapped (hs : IsOpening w s) (hne : n ≠ [])
    (hn : ∀ c ∈ n, isPlainNameChar c = true) (hw : IsWrapped n w) (hb : b ≠ [])
    (hsemi : ';' ∉ b) (hg : Blanks g) (r : List Char) :
    createTable.run (s ++ (b ++ ')' :: (g ++ ';' :: r))) = some ((w, b), r) := by
  have hname : ∀ c ∈ w, isTableNameChar c = true := fun c hc =>
    isTableNameChar_of_isNameChar (hw.isNameChar hn c hc)
  exact hs.createTable_run_eq (hw.ne_nil hne) hname hb hsemi hg r

theorem IsStatement.exists_run {table : Table} (h : IsStatement ok mode s table) :
    ∃ w b, IsBody ok mode b table.columns ∧ stripQuotes w ≠ [] ∧
      table.name = String.ofList (stripQuotes w) ∧
      ∀ r, createTable.run (s ++ r) = some ((w, b), r) := by
  cases h with
  | @mk n w s b g cs hne hall hw hs hb hg =>
    have hn := List.all_eq_true.mp hall
    have hstrip := hw.stripQuotes_eq hn
    refine ⟨w, b, hb, by rwa [hstrip], by rw [hstrip], fun r => ?_⟩
    have hrun := hs.createTable_run_wrapped hne hn hw hb.ne_nil hb.semicolon_notMem hg r
    simpa using hrun

/-- The table with what `f` makes of its columns. -/
def Table.mapColumns (f : List Column → List Column) (t : Table) : Table where
  name := t.name
  columns := f t.columns

/-- A way to split that gives what `f` makes of the columns of each body gives the tables that
still have any. -/
theorem IsWritten.tables_eq {f : List Column → List Column} {ts : List Table}
    (hbody : ∀ {b cs}, IsBody ok mode b cs → definedColumns mode b = f cs)
    (h : IsWritten ok mode s ts) :
    tables mode s = (ts.map (·.mapColumns f)).filter (·.columns ≠ []) := by
  induction h with
  | @nil g hg =>
    have hnone := Pattern.findAll_append_of_run_eq_none
      (fun c hc t => createTable_run_blank (hg c hc) t) []
    rw [List.append_nil, Pattern.findAll_nil] at hnone
    rw [Ddl.tables_eq, hnone]
    rfl
  | @cons g s r t ts hg hs _ ih =>
    obtain ⟨w, b, hb, hne, hname, hrun⟩ := hs.exists_run
    have htable : Table.ofStatement? mode w b =
        if f t.columns = [] then none else some (t.mapColumns f) := by
      simp only [Table.ofStatement?, hbody hb, hne, false_or, ← hname, Table.mapColumns]
    rw [Ddl.tables_eq, Pattern.findAll_append_of_run_eq_none
      (fun c hc t => createTable_run_blank (hg c hc) t), Pattern.findAll_of_run_eq_some (hrun r)]
    by_cases hcolumns : f t.columns = []
    · rw [List.filterMap_cons_none (by simp [htable, hcolumns]), ← Ddl.tables_eq, ih, List.map_cons,
        List.filter_cons_of_neg (by simp [Table.mapColumns, hcolumns])]
    · rw [List.filterMap_cons_some (b := t.mapColumns f) (by simp [htable, hcolumns]),
        ← Ddl.tables_eq, ih, List.map_cons,
        List.filter_cons_of_pos (by simp [Table.mapColumns, hcolumns])]

theorem map_mapColumns_id (ts : List Table) : ts.map (·.mapColumns id) = ts := List.map_id ts

/-! ## Definitions are read -/

/-- The columns that a piece of a body defines, which are one or none. -/
def columnsOf (p : List Char) : List Column :=
  let s := trim (joinLines p)
  if constrainsTable s then [] else (Column.ofSegment? s).toList

theorem definedColumns_eq (mode : SplitMode) (b : List Char) :
    definedColumns mode b = (pieces mode b).flatMap columnsOf := by
  rw [definedColumns, segments]
  induction pieces mode b with
  | nil => rfl
  | cons p ps ih =>
    rw [List.map_cons, List.flatMap_cons, ← ih, columnsOf]
    by_cases hempty : trim (joinLines p) = []
    · have hnone : Column.ofSegment? [] = none := rfl
      simp [hempty, hnone]
    · by_cases hclause : constrainsTable (trim (joinLines p)) = true
      · simp [hempty, hclause]
      · cases hs : Column.ofSegment? (trim (joinLines p)) <;> simp [hempty, hclause, hs]

/-- A definition of a column that is not taken for a clause when its line breaks are read as
spaces. -/
def StartsNoClause (s : List Char) : Prop := constrainsTable (joinLines s) = false

instance (s : List Char) : Decidable (StartsNoClause s) := inferInstanceAs (Decidable (_ = false))

theorem columnsOf_defines (hg : Spacing g) (hs : Defines mode s column) (hh : Spacing h) :
    columnsOf (g ++ (s ++ h)) = if constrainsTable (joinLines s) then [] else [column] := by
  have htrim : trim (joinLines (g ++ (s ++ h))) = joinLines s := by
    rw [joinLines_append, joinLines_append]
    exact trim_append_blanks hg.joinLines.blanks hs.joinLines.tight hh.joinLines.blanks
  rw [columnsOf, htrim, hs.joinLines.ofSegment?_eq]
  rfl

theorem columnsOf_column (hg : Spacing g) (hs : Defines mode s column) (hstart : StartsNoClause s)
    (hh : Spacing h) : columnsOf (g ++ (s ++ h)) = [column] := by
  rw [columnsOf_defines hg hs hh, hstart]
  rfl

theorem constrainsTable_iff :
    constrainsTable s = true ↔
      ∃ word ∈ tableConstraints, ∃ k r, s = k ++ r ∧ isWord k word = true := by
  simp only [constrainsTable, List.any_eq_true, startsWithWord, Option.isSome_iff_exists,
    dropWord?_sameLetter_eq_some_iff, isWord_iff]
  constructor
  · rintro ⟨word, hword, r, k, hs⟩
    exact ⟨word, hword, k, r, hs⟩
  · rintro ⟨word, hword, k, r, hs⟩
    exact ⟨word, hword, r, k, hs⟩

theorem tight_of_mem_tableConstraints {word : List Char} (hword : word ∈ tableConstraints)
    (hk : isWord k word = true) : Tight k := by
  have hends : tableConstraints.all (fun word => word.head?.any (!isBlank ·.toLower) &&
      word.getLast?.any (!isBlank ·.toLower)) = true := by decide
  obtain ⟨hfirst, hlast⟩ := Bool.and_eq_true_iff.mp (List.all_eq_true.mp hends word hword)
  exact tight_of_isWord hk hfirst hlast

theorem isAlpha_or_eq_of_mem_tableConstraints {word : List Char} (hword : word ∈ tableConstraints)
    (hk : isWord k word = true) : ∀ c ∈ k, c.isAlpha = true ∨ c = ' ' := by
  have hletters : tableConstraints.all (·.all fun a => a.isAlpha || a == ' ') = true := by decide
  exact isAlpha_or_eq_of_isWord (List.all_eq_true.mp hletters word hword) hk

theorem columnsOf_clause (hg : Spacing g) (hs : constrainsTable s = true) (t : List Char) :
    columnsOf (g ++ (s ++ t)) = [] := by
  obtain ⟨word, hword, k, r, rfl, hk⟩ := constrainsTable_iff.mp hs
  have hself := joinLines_of_isAlpha_or_eq (isAlpha_or_eq_of_mem_tableConstraints hword hk)
  have htrim : constrainsTable (trim (joinLines (g ++ (k ++ r ++ t)))) = true := by
    rw [joinLines_append, List.append_assoc, joinLines_append k, hself,
      trim_append hg.joinLines.blanks (tight_of_mem_tableConstraints hword hk)]
    exact constrainsTable_iff.mpr ⟨word, hword, k, _, rfl, hk⟩
  rw [columnsOf, htrim]
  rfl

/-! ## The naive split -/

theorem IsDefinition.columnsOf_eq (h : IsDefinition StartsNoClause mode p cs) :
    columnsOf p = cs := by
  cases h with
  | column hg hs hstart hh => exact columnsOf_column hg hs hstart hh
  | clause hg hs => exact columnsOf_clause hg hs.1 _

theorem IsDefinition.comma_notMem (h : IsDefinition ok .naive p cs) : ',' ∉ p := by
  have hgap : ∀ {w}, Spacing w → ',' ∉ w := fun hw => hw.blanks.notMem (by decide)
  cases h with
  | column hg hs _ hh =>
    have hs' := hs.notMem (c := ',') (by decide) (by decide) fun x hx hc => by
      cases hx with
      | none => simp at hc
      | @precision _ a ha =>
        have hdigit : ',' ∉ a := fun h => absurd (ha.all _ h) (by decide)
        simp [hdigit] at hc
    simp [hgap hg, hs', hgap hh]
  | clause hg hs hh => simp [hgap hg, hs.2.1, hgap hh]

theorem IsDefinition.beq_comma_eq (h : IsDefinition ok .naive p cs) :
    ∀ c ∈ p, (c == ',') = false := by
  intro c hc
  have hne : c ≠ ',' := fun heq => h.comma_notMem (heq ▸ hc)
  simpa using hne

/-- The naive split gives of a body what it gives of each definition. -/
theorem IsBody.columnsOf_splitNaive {f : List Column → List Column}
    (hf : ∀ cs cs', f (cs ++ cs') = f cs ++ f cs')
    (hdefinition : ∀ {p cs}, IsDefinition ok .naive p cs → columnsOf p = f cs)
    (h : IsBody ok .naive b cs) : (splitNaive b).flatMap columnsOf = f cs := by
  induction h with
  | last h =>
    rw [splitNaive, List.splitOn, List.splitOnP_eq_singleton h.beq_comma_eq,
      List.flatMap_singleton, hdefinition h]
  | @more p b cs cs' h _ ih =>
    rw [splitNaive, List.splitOn, List.splitOnP_append_cons_of_forall_mem h.beq_comma_eq ',' rfl,
      List.flatMap_cons, hdefinition h, hf]
    exact congrArg (f cs ++ ·) ih

/-- Under the naive split a written schema gives its tables and columns back, if no column is
taken for a clause. -/
theorem tables_naive_of_isWritten {ts : List Table} (h : IsWritten StartsNoClause .naive s ts)
    (hne : ∀ t ∈ ts, t.columns ≠ []) : tables .naive s = ts := by
  have hbody : ∀ {b cs}, IsBody StartsNoClause .naive b cs → definedColumns .naive b = id cs :=
    fun hb => (definedColumns_eq .naive _).trans
      (hb.columnsOf_splitNaive (fun _ _ => rfl) (·.columnsOf_eq))
  rw [h.tables_eq hbody, map_mapColumns_id]
  exact List.filter_eq_self.mpr fun t ht => by simpa using hne t ht

theorem tables_naive_of_isWritten_quoted :
    tables .naive "CREATE TABLE t(\"a\" INT(10)unique, Check(a>0));".toList =
      [⟨"t", [⟨"a", "int(10)", false, false, true⟩]⟩] := by
  have hcolumn : Defines .naive "\"a\" INT(10)unique".toList (.written ['a'] _ [.unique]) :=
    .mk (w := ['"', 'a', '"']) (g := [' ']) (y := ['I', 'N', 'T']) (x := ['(', '1', '0', ')'])
      ⟨by decide, by decide⟩ (.quoted (q := '"') rfl) (by decide) (by decide)
      ⟨by decide, by decide⟩ (.precision (a := ['1', '0']) ⟨by decide, by decide⟩)
      (.cons (f := .unique) (g := []) (k := ['u', 'n', 'i', 'q', 'u', 'e']) (by decide) (by decide)
        (by decide) .nil)
  have hclause : IsClause .naive "Check(a>0)".toList := ⟨by decide, by decide, by decide⟩
  have hbody : IsBody StartsNoClause .naive "\"a\" INT(10)unique, Check(a>0)".toList _ :=
    .more (.column (g := []) (h := []) (by decide) hcolumn (by decide) (by decide))
      (.last (.clause (g := [' ']) (h := []) (by decide) hclause (by decide)))
  exact tables_naive_of_isWritten (isWritten_openingText hbody) (by simp)

/-- A type behind a line break can complete the first words of a clause. -/
theorem isBody_primaryKey (mode : SplitMode) :
    IsBody (fun d => constrainsTable d = false) mode
      (['a', ' ', 'i', 'n', 't'] ++ ',' ::
        (['P', 'R', 'I', 'M', 'A', 'R', 'Y'] ++ '\n' :: ['k', 'e', 'y']))
      [.written ['a'] ['i', 'n', 't'] [],
        .written ['P', 'R', 'I', 'M', 'A', 'R', 'Y'] ['k', 'e', 'y'] []] := by
  have hfirst : Defines mode _ _ := defines_cons (n := ['a']) (c := ' ') (w := ['i', 'n', 't'])
    (by decide) (by decide) (by decide)
  have hsecond : Defines mode _ _ := defines_cons (n := ['P', 'R', 'I', 'M', 'A', 'R', 'Y'])
    (c := '\n') (w := ['k', 'e', 'y']) (by decide) (by decide) (by decide)
  exact .more (.of_defines hfirst (by decide)) (.last (.of_defines hsecond (by decide)))

theorem not_forall_tables_naive_eq :
    ¬∀ s ts, IsWritten (fun d => constrainsTable d = false) .naive s ts →
      (∀ t ∈ ts, t.columns ≠ []) → tables .naive s = ts := by
  intro h
  have heq := h _ _ (isWritten_openingText (isBody_primaryKey .naive)) (by simp)
  exact absurd heq (by decide +kernel)

end Salvage.Ddl
