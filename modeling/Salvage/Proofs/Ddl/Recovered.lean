import Salvage.Proofs.Ddl.LineFeeds

/-! # Recovered tables

Whatever the text, a table has a name and columns, no name holds a quote, and a type is a word
in small letters with at most two numbers behind it. The name of a table is asked whether
anything is left of it without its quotes. That of a column is not, and a definition whose name
is made of quotes gives a column without a name.
-/

namespace Salvage.Ddl

open Text

/-- A character of the word of a type in small letters. -/
def isSmallTypeChar (c : Char) : Bool := c.isLower || c.isDigit || c == '_'

/-- The numbers behind the word of a type, with any blanks behind the comma between two. -/
inductive IsNumbers : List Char → Prop where
  | none : IsNumbers []
  | one {a : List Char} (ha : IsNumber a) : IsNumbers ('(' :: (a ++ [')']))
  | two {a g b : List Char} (ha : IsNumber a) (hg : Blanks g) (hb : IsNumber b) :
      IsNumbers ('(' :: (a ++ ',' :: (g ++ (b ++ [')']))))

inductive IsTypeText : List Char → Prop where
  | mk {w x : List Char} (hne : w ≠ []) (hw : w.all isSmallTypeChar = true) (hx : IsNumbers x) :
      IsTypeText (w ++ x)

def Unquoted (name : String) : Prop := '"' ∉ name.toList ∧ '\x60' ∉ name.toList

structure Column.IsRegular (c : Column) : Prop where
  unquoted : Unquoted c.name
  isTypeText : IsTypeText c.type.toList

/-- What every table has that is recovered. -/
structure Table.IsRegular (t : Table) : Prop where
  name_ne : t.name ≠ ""
  unquoted : Unquoted t.name
  columns_ne : t.columns ≠ []
  columns : ∀ c ∈ t.columns, c.IsRegular

structure Table.IsWellFormed (t : Table) : Prop extends t.IsRegular where
  column_name_ne : ∀ c ∈ t.columns, c.name ≠ ""

/-- A definition that begins with the name and the type of a column, the name being made of
quotes. -/
inductive IsNameless : List Char → Prop where
  | mk {q g r : List Char} {d : Char} (hne : q ≠ []) (hq : ∀ c ∈ q, isIdentifierQuote c = true)
      (hgap : g ≠ []) (hg : Blanks g) (hd : isTypeChar d = true) : IsNameless (q ++ (g ++ d :: r))

variable {b n r s x : List Char} {c : Char} {h : Heading} {column : Column}
  {mode : SplitMode}

/-! ## Names -/

theorem stripQuotes_eq_nil_iff : stripQuotes n = [] ↔ ∀ c ∈ n, isIdentifierQuote c = true := by
  simp [stripQuotes]

theorem unquoted_stripQuotes (n : List Char) : Unquoted (String.ofList (stripQuotes n)) := by
  simp [Unquoted, stripQuotes, isIdentifierQuote]

theorem ofList_ne_empty_iff : String.ofList n ≠ "" ↔ n ≠ [] := by
  rw [Ne, ← String.ofList_nil, String.ofList_inj]

/-! ## Types -/

theorem isSmallTypeChar_toLower (hc : isTypeChar c = true) : isSmallTypeChar c.toLower = true := by
  by_cases hletter : c.isAlpha = true
  · simp [isSmallTypeChar, isLower_toLower hletter]
  · rw [toLower_eq_self (by simpa using hletter)]
    simp only [isTypeChar, Char.isAlphanum, hletter, Bool.false_or] at hc
    simp only [isSmallTypeChar, Bool.or_assoc, hc, Bool.or_true]

theorem IsNumber.isAlpha_eq {ds : List Char} (h : IsNumber ds) : ∀ c ∈ ds, c.isAlpha = false :=
  fun c hc => isAlpha_eq_of_isDigit (h.all c hc)

/-- Numbers have no letter to make small. -/
theorem IsNumbers.lower_eq (hx : IsNumbers x) : lower x = x := by
  refine lower_eq_self fun c hc => ?_
  cases hx with
  | none => simp at hc
  | one ha =>
    simp only [List.mem_cons, List.mem_append, List.not_mem_nil, or_false] at hc
    rcases hc with rfl | hc | rfl
    · decide
    · exact ha.isAlpha_eq c hc
    · decide
  | two ha hg hb =>
    simp only [List.mem_cons, List.mem_append, List.not_mem_nil, or_false] at hc
    rcases hc with rfl | hc | rfl | hc | hc | rfl
    · decide
    · exact ha.isAlpha_eq c hc
    · decide
    · exact hg.isAlpha_eq c hc
    · exact hb.isAlpha_eq c hc
    · decide

theorem isNumber_of_takeSome {ds : List Char} (h : takeSome Char.isDigit s = some (ds, r)) :
    IsNumber ds := by
  obtain ⟨-, hne, hds, -⟩ := takeSome_eq_some_iff.mp h
  exact ⟨hne, List.all_eq_true.mpr hds⟩

/-- There is no second number, or it stands behind a comma and blanks. -/
theorem secondNumber_cases (s : List Char) :
    (secondNumber s).1 = [] ∨
      ∃ g ds, (secondNumber s).1 = ',' :: (g ++ ds) ∧ Blanks g ∧ IsNumber ds := by
  unfold secondNumber
  split
  · rename_i r
    split
    · rename_i ds rest hds
      exact .inr ⟨_, ds, rfl, fun c => List.mem_takeWhile_imp, isNumber_of_takeSome hds⟩
    · exact .inl rfl
  · exact .inl rfl

theorem isNumbers_of_typeNumbers? (h : typeNumbers? s = some (x, r)) : IsNumbers x := by
  unfold typeNumbers? at h
  split at h
  · obtain ⟨⟨a, t⟩, ha, h⟩ := Option.bind_eq_some_iff.mp h
    simp only at h
    split at h
    · obtain ⟨rfl, -⟩ := Prod.mk.inj (Option.some.inj h)
      have hnumber := isNumber_of_takeSome ha
      rcases secondNumber_cases t with hnone | ⟨g, ds, htwo, hg, hds⟩
      · simpa [hnone] using IsNumbers.one hnumber
      · simpa [htwo] using IsNumbers.two hnumber hg hds
    · simp at h
  · simp at h

theorem isNumbers_getD (s : List Char) : IsNumbers ((typeNumbers? s).getD ([], s)).1 := by
  cases h : typeNumbers? s with
  | none => exact .none
  | some x => exact isNumbers_of_typeNumbers? h

/-! ## Headings -/

/-- The parts of a heading stand one behind the other, and the type is a word with numbers. -/
theorem exists_of_heading? (hs : heading? s = some h) :
    ∃ g d t, s = h.name ++ (g ++ d :: t) ∧ h.name ≠ [] ∧ g ≠ [] ∧ Blanks g ∧
      isTypeChar d = true ∧ IsTypeText (lower h.type) := by
  obtain ⟨⟨n, t⟩, hname, hs⟩ := Option.bind_eq_some_iff.mp hs
  obtain ⟨u, hgap, hs⟩ := Option.bind_eq_some_iff.mp hs
  obtain ⟨⟨w, v⟩, hword, hs⟩ := Option.bind_eq_some_iff.mp hs
  have hnumbers := isNumbers_getD v
  simp only at hs
  generalize (typeNumbers? v).getD ([], v) = x at hs hnumbers
  obtain rfl := Option.some.inj hs
  obtain ⟨rfl, hne, -, -⟩ := takeSome_eq_some_iff.mp hname
  obtain ⟨g, rfl, hgne, hg, -⟩ := skipSomeBlanks_eq_some_iff.mp hgap
  obtain ⟨rfl, hwne, hw, -⟩ := takeSome_eq_some_iff.mp hword
  obtain ⟨d, w, rfl⟩ := List.exists_cons_of_ne_nil hwne
  refine ⟨g, d, w ++ v, rfl, hne, hgne, hg, hw d List.mem_cons_self, ?_⟩
  -- Only the word can have capital letters.
  rw [lower_append, hnumbers.lower_eq]
  refine .mk (by simp [lower]) (List.all_eq_true.mpr fun c hc => ?_) hnumbers
  obtain ⟨a, ha, rfl⟩ := List.mem_map.mp hc
  exact isSmallTypeChar_toLower (hw a ha)

theorem isNameless_iff : IsNameless s ↔ ∃ h ∈ heading? s, stripQuotes h.name = [] := by
  constructor
  · rintro ⟨hne, hq, hgap, hg, hd⟩
    have hname := fun c hc => isNameChar_iff.mpr (.inr (hq c hc))
    obtain ⟨h, hs, rfl⟩ := exists_heading? hne hname hgap hg hd _
    exact ⟨h, hs, stripQuotes_eq_nil_iff.mpr hq⟩
  · rintro ⟨h, hs, hname⟩
    obtain ⟨g, d, t, rfl, hne, hgne, hg, hd, -⟩ := exists_of_heading? hs
    exact .mk hne (stripQuotes_eq_nil_iff.mp hname) hgne hg hd

instance (s : List Char) : Decidable (IsNameless s) := decidable_of_iff _ isNameless_iff.symm

theorem Heading.isRegular_column (hs : heading? s = some h) : h.column.IsRegular where
  unquoted := unquoted_stripQuotes h.name
  isTypeText := by
    obtain ⟨-, -, -, -, -, -, -, -, htype⟩ := exists_of_heading? hs
    simpa [Heading.column] using htype

/-- A clause begins with a letter. -/
theorem IsNameless.constrainsTable_eq (hs : IsNameless s) : constrainsTable s = false := by
  rw [Bool.eq_false_iff, Ne, constrainsTable_iff]
  rintro ⟨word, hword, k, r, heq, hk⟩
  obtain ⟨hne, hq, -, -, -⟩ := hs
  obtain ⟨⟨c, hc, -⟩, -⟩ := tight_of_mem_tableConstraints hword hk
  obtain ⟨k, rfl⟩ := List.head?_eq_some_iff.mp hc
  obtain ⟨a, q, rfl⟩ := List.exists_cons_of_ne_nil hne
  obtain ⟨rfl, -⟩ := List.cons.inj heq
  have hquote := hq a List.mem_cons_self
  rcases isAlpha_or_eq_of_mem_tableConstraints hword hk a List.mem_cons_self with h | rfl
  · simp only [isIdentifierQuote, Bool.or_eq_true, beq_iff_eq] at hquote
    rcases hquote with rfl | rfl <;> exact absurd h (by decide)
  · exact absurd hquote (by decide)

/-! ## Tables -/

theorem mem_definedColumns_iff :
    column ∈ definedColumns mode b ↔
      ∃ p ∈ segments mode b, constrainsTable p = false ∧ ∃ h ∈ heading? p, h.column = column := by
  simp only [definedColumns, List.mem_filterMap, List.mem_filter, Bool.not_eq_true',
    ofSegment?_eq_map, Option.map_eq_some_iff, Option.mem_def, and_assoc]

theorem mem_tables_iff {t : Table} :
    t ∈ tables mode s ↔ ∃ x ∈ createTable.findAll s, stripQuotes x.1 ≠ [] ∧
      definedColumns mode x.2 ≠ [] ∧
        t = ⟨String.ofList (stripQuotes x.1), definedColumns mode x.2⟩ := by
  rw [tables_eq, List.mem_filterMap]
  refine exists_congr fun x => and_congr_right fun _ => ?_
  rw [Table.ofStatement?]
  by_cases hnone : stripQuotes x.1 = [] ∨ definedColumns mode x.2 = []
  · rw [if_pos hnone]
    exact iff_of_false (by simp) fun h => hnone.elim h.1 h.2.1
  · rw [if_neg hnone, Option.some.injEq, eq_comm]
    simp [not_or.mp hnone]

theorem isRegular_of_mem_tables {t : Table} (ht : t ∈ tables mode s) : t.IsRegular := by
  obtain ⟨x, -, hname, hcolumns, rfl⟩ := mem_tables_iff.mp ht
  constructor
  case name_ne => exact ofList_ne_empty_iff.mpr hname
  case unquoted => exact unquoted_stripQuotes x.1
  case columns_ne => exact hcolumns
  case columns =>
    intro c hc
    obtain ⟨p, -, -, h, hp, rfl⟩ := mem_definedColumns_iff.mp hc
    exact Heading.isRegular_column hp

/-- A column is without a name just where the definition has one of quotes only. -/
theorem forall_name_ne_iff :
    (∀ c ∈ definedColumns mode b, c.name ≠ "") ↔ ∀ p ∈ segments mode b, ¬IsNameless p := by
  constructor
  · intro hnames p hp hnone
    obtain ⟨h, hh, hname⟩ := isNameless_iff.mp hnone
    have hmem : h.column ∈ definedColumns mode b :=
      mem_definedColumns_iff.mpr ⟨p, hp, hnone.constrainsTable_eq, h, hh, rfl⟩
    exact hnames _ hmem (by simp [Heading.column, hname])
  · intro hsegments c hc
    obtain ⟨p, hp, -, h, hh, rfl⟩ := mem_definedColumns_iff.mp hc
    exact ofList_ne_empty_iff.mpr fun hname =>
      hsegments p hp (isNameless_iff.mpr ⟨h, hh, hname⟩)

/-- A recovered table may lack the names of columns and nothing else, and it lacks one just if a
definition in a statement that has a name gives its column a name of quotes only. -/
theorem forall_isWellFormed_iff (mode : SplitMode) (s : List Char) :
    (∀ t ∈ tables mode s, t.IsRegular) ∧
      ((∀ t ∈ tables mode s, t.IsWellFormed) ↔
        ∀ x ∈ createTable.findAll s, stripQuotes x.1 ≠ [] →
          ∀ p ∈ segments mode x.2, ¬IsNameless p) := by
  refine ⟨fun t => isRegular_of_mem_tables, fun hall x hx hname => ?_, fun hall t ht => ?_⟩
  · rw [← forall_name_ne_iff]
    intro c hc
    have hmem := mem_tables_iff.mpr ⟨x, hx, hname, List.ne_nil_of_mem hc, rfl⟩
    exact (hall _ hmem).column_name_ne c hc
  · refine ⟨isRegular_of_mem_tables ht, ?_⟩
    obtain ⟨x, hx, hname, -, rfl⟩ := mem_tables_iff.mp ht
    exact forall_name_ne_iff.mpr (hall x hx hname)

theorem forall_isWellFormed_iff_scale :
    (⟨"s.t", [⟨"a", "numeric(10, 2)", false, true, false⟩, ⟨"b", "text", false, false, false⟩]⟩ :
        Table) ∈ tables .parenDepth
          "create table \"s.t\" (`a` NUMERIC(10, 2) not null,\n\"b\" TEXT);".toList ∧
      ∀ t ∈ tables .parenDepth
          "create table \"s.t\" (`a` NUMERIC(10, 2) not null,\n\"b\" TEXT);".toList,
        t.IsWellFormed :=
  ⟨by decide +kernel, (forall_isWellFormed_iff .parenDepth _).2.mpr (by decide +kernel)⟩

/-- Two quotes are the name of a column, and nothing is left of it. -/
theorem not_forall_isWellFormed :
    ¬∀ mode s, ∀ t ∈ tables mode s, t.IsWellFormed := by
  intro hall
  have hmem : (⟨"t", [⟨"id", "int", false, false, false⟩, ⟨"", "text", false, false, false⟩]⟩ :
      Table) ∈ tables .naive "CREATE TABLE t (id INT, \"\" TEXT);".toList := by decide +kernel
  exact (hall _ _ _ hmem).column_name_ne ⟨"", "text", false, false, false⟩ (by decide) rfl

end Salvage.Ddl
