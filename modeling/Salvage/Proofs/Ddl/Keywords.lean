import Salvage.Proofs.Ddl.Depth

/-! # Names that begin like a clause

A definition is taken for a clause by its first letters alone. So among columns that are
written as two words, the ones left out are known from these words: the name begins with one
of the keywords that are single words, or name and type begin with the two words of a key.
A keyword does not have to end where the name does.
-/

namespace Salvage.Ddl

open Text

variable {n p s : List Char} {column : Column} {cs : List Column}

/-- A name and a type with a single space between them. -/
def IsWords (s : List Char) : Prop :=
  ∃ n y, IsIdentifier n ∧ IsIdentifier y ∧ s = n ++ ' ' :: y

/-- The name and the type of the column begin like a clause. -/
def Column.startsClause (c : Column) : Bool :=
  let name := c.name.toList
  (isWord name "PRIMARY".toList || isWord name "FOREIGN".toList) &&
      startsWithWord c.type.toList "KEY".toList ||
    startsWithWord name "CONSTRAINT".toList || startsWithWord name "CHECK".toList

/-! ## The words of a column -/

theorem IsIdentifier.space_notMem_lower (h : IsIdentifier n) : ' ' ∉ lower n := by
  intro hmem
  obtain ⟨c, hc, hlower⟩ := List.mem_map.mp hmem
  obtain rfl := (toLower_eq_iff (by decide)).mp hlower
  exact absurd (h.all _ hc) (by decide)

/-- The text of a column in two words starts a clause just if the column does. -/
theorem constrainsTable_words (hn : IsIdentifier n) (y : List Char) :
    constrainsTable (n ++ ' ' :: y) = (Column.written n y []).startsClause := by
  have hkeywords : tableConstraints = ["PRIMARY".toList ++ ' ' :: "KEY".toList,
      "FOREIGN".toList ++ ' ' :: "KEY".toList, "CONSTRAINT".toList, "CHECK".toList] := rfl
  have htype : startsWithWord (lower y) "KEY".toList = startsWithWord y "KEY".toList := by
    rw [Bool.eq_iff_iff, startsWithWord_iff, startsWithWord_iff, lower_lower]
  -- The space behind the name ends each keyword that has none, and is the one of a key.
  have hkey {word : List Char} (hword : ' '.toLower ∉ lower word) :
      startsWithWord (n ++ ' ' :: y) (word ++ ' ' :: "KEY".toList) =
        (isWord n word && startsWithWord y "KEY".toList) :=
    startsWithWord_mark hn.space_notMem_lower hword y
  have hname {word : List Char} (hword : ' '.toLower ∉ lower word) :
      startsWithWord (n ++ ' ' :: y) word = startsWithWord n word :=
    startsWithWord_append_cons hword n y
  simp only [Column.startsClause, Column.written, String.toList_ofList, htype]
  rw [constrainsTable, hkeywords, List.any_cons, List.any_cons, List.any_cons, List.any_cons,
    List.any_nil, hkey (by decide), hkey (by decide), hname (by decide), hname (by decide),
    Bool.or_false, Bool.and_or_distrib_right, Bool.or_assoc, Bool.or_assoc]

theorem IsWords.constrainsTable_eq {mode : SplitMode} (hs : IsWords s)
    (hcolumn : Defines mode s column) : constrainsTable (joinLines s) = column.startsClause := by
  obtain ⟨n, y, hn, hy, rfl⟩ := hs
  have hwords : Defines mode (n ++ ' ' :: y) (.written n y []) := defines_cons hn (by decide) hy
  obtain rfl := Option.some.inj (hcolumn.ofSegment?_eq.symm.trans hwords.ofSegment?_eq)
  have hself : joinLines (n ++ ' ' :: y) = n ++ ' ' :: y := by
    refine joinLines_eq_self fun c hc => ?_
    rcases List.mem_append.mp hc with hc | hc
    · exact isLineBreak_eq_of_isBlank (hn.isBlank_eq c hc)
    rcases List.mem_cons.mp hc with rfl | hc
    · decide
    · exact isLineBreak_eq_of_isBlank (hy.isBlank_eq c hc)
  rw [hself, constrainsTable_words hn]

/-! ## Columns that are left out -/

theorem IsDefinition.columnsOf_words {mode : SplitMode} (h : IsDefinition IsWords mode p cs) :
    columnsOf p = cs.filter (!·.startsClause) := by
  cases h with
  | @column _ _ _ column hg hs hwords hh =>
    rw [columnsOf_defines hg hs hh, hwords.constrainsTable_eq hs]
    cases h : column.startsClause <;> simp [h]
  | clause hg hs => exact columnsOf_clause hg hs.1 _

theorem Table.mapColumns_eq_self_iff {f : List Column → List Column} {t : Table} :
    t.mapColumns f = t ↔ f t.columns = t.columns := by
  cases t
  simp [mapColumns]

/-- Nothing is left out of tables that come back the same. -/
theorem filter_map_mapColumns_eq_iff {f : List Column → List Column} {ts : List Table}
    (hne : ∀ t ∈ ts, t.columns ≠ []) :
    (ts.map (·.mapColumns f)).filter (·.columns ≠ []) = ts ↔
      ∀ t ∈ ts, f t.columns = t.columns := by
  simp only [← Table.mapColumns_eq_self_iff]
  constructor
  · intro h
    -- As many tables are left as there were, so the filter keeps each of them.
    have hall : ((ts.map (·.mapColumns f)).filter (·.columns ≠ [])).length =
        (ts.map (·.mapColumns f)).length := by rw [h, List.length_map]
    rw [List.length_filter_eq_length_iff, ← List.filter_eq_self] at hall
    rw [hall] at h
    exact List.map_inj_left.mp (h.trans (List.map_id ts).symm)
  · intro h
    rw [List.map_congr_left (g := id) h, List.map_id]
    exact List.filter_eq_self.mpr fun t ht => by simpa using hne t ht

/-- Of a schema whose columns are written as two words each, the columns come back that do not
begin like a clause. -/
theorem tables_of_isWords {mode : SplitMode} {ts : List Table} (h : IsWritten IsWords mode s ts)
    (hne : ∀ t ∈ ts, t.columns ≠ []) :
    tables mode s =
        (ts.map (·.mapColumns (·.filter (!·.startsClause)))).filter (·.columns ≠ []) ∧
      (tables mode s = ts ↔ ∀ t ∈ ts, ∀ c ∈ t.columns, c.startsClause = false) := by
  have hbody : ∀ {b cs}, IsBody IsWords mode b cs →
      definedColumns mode b = cs.filter (!·.startsClause) :=
    fun hb => hb.definedColumns_eq (fun _ _ => List.filter_append ..) (·.columnsOf_words)
  have htables := h.tables_eq hbody
  refine ⟨htables, ?_⟩
  rw [htables, filter_map_mapColumns_eq_iff hne]
  simp only [List.filter_eq_self, Bool.not_eq_true']

/-- Columns in two words each, with nothing but commas between them. -/
def listing (ds : List (List Char × List Char)) : List Char :=
  [','].intercalate (ds.map fun (n, y) => n ++ ' ' :: y)

theorem listing_cons_cons (d e : List Char × List Char) (ds : List (List Char × List Char)) :
    listing (d :: e :: ds) = (d.1 ++ ' ' :: d.2) ++ ',' :: listing (e :: ds) := by
  simp [listing]

theorem isBody_listing {mode : SplitMode} {ds : List (List Char × List Char)} (hne : ds ≠ [])
    (hds : ∀ d ∈ ds, IsIdentifier d.1 ∧ IsIdentifier d.2) :
    IsBody IsWords mode (listing ds) (ds.map fun (n, y) => .written n y []) := by
  have hcolumn {d : List Char × List Char} (hn : IsIdentifier d.1) (hy : IsIdentifier d.2) :
      IsDefinition IsWords mode (d.1 ++ ' ' :: d.2) [.written d.1 d.2 []] :=
    .of_defines (defines_cons hn (by decide) hy) ⟨_, _, hn, hy, rfl⟩
  induction ds with
  | nil => exact absurd rfl hne
  | cons d ds ih =>
    obtain ⟨⟨hn, hy⟩, hds⟩ := List.forall_mem_cons.mp hds
    cases ds with
    | nil => simpa [listing] using IsBody.last (hcolumn hn hy)
    | cons e ds =>
      rw [listing_cons_cons]
      exact .more (hcolumn hn hy) (ih (List.cons_ne_nil e ds) hds)

theorem tables_of_isWords_checked :
    tables .naive "CREATE TABLE t(id INT,checked BOOLEAN,primary_id INT);".toList =
      [⟨"t", [⟨"id", "int", false, false, false⟩,
        ⟨"primary_id", "int", false, false, false⟩]⟩] := by
  have hbody : IsBody IsWords .naive (listing [("id".toList, "INT".toList),
      ("checked".toList, "BOOLEAN".toList), ("primary_id".toList, "INT".toList)]) _ :=
    isBody_listing (by simp) (by decide)
  exact (tables_of_isWords (isWritten_openingText hbody) (by simp)).1.trans (by decide)

/-- A name that only begins with a keyword is not one of the keywords. -/
theorem not_forall_tables_naive_listing_eq :
    ¬∀ ds : List (List Char × List Char), ds ≠ [] →
      (∀ d ∈ ds, IsIdentifier d.1 ∧ IsIdentifier d.2 ∧
        ∀ word ∈ ["PRIMARY", "FOREIGN", "CONSTRAINT", "CHECK"], isWord d.1 word.toList = false) →
      tables .naive (openingText ['t'] ++ (listing ds ++ [')', ';'])) =
        [⟨"t", ds.map fun (n, y) => .written n y []⟩] := by
  intro h
  have heq := h [("id".toList, "INT".toList), ("checked".toList, "BOOLEAN".toList)] (by simp)
    (by decide)
  exact absurd heq (by decide +kernel)

end Salvage.Ddl
