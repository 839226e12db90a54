import Salvage.Proofs.Ddl.LineFeeds

/-! # Line ends of a schema

Each character of a line break becomes a space in a definition, and a keyword of two words has a
single space between them. So a line feed between the words is read as that space, and a carriage
return and a line feed are not. This is the only way in which a carriage return in front of each
line feed can change the tables.
-/

namespace Salvage.Ddl

open Text

variable {b e n p s : List Char}

/-! ## Keywords of two words -/

/-- The two words of the clauses that have two. -/
def clauseWords : List (List Char × List Char) :=
  [("PRIMARY".toList, "KEY".toList), ("FOREIGN".toList, "KEY".toList)]

/-- The two words of the flags that have two. -/
def flagWords : List (List Char × List Char) :=
  [("PRIMARY".toList, "KEY".toList), ("NOT".toList, "NULL".toList)]

/-- The text begins with the words of a clause and a line feed between them. -/
def BreaksClause (s : List Char) : Prop :=
  ∃ x ∈ clauseWords, startsWithWord s (joined x.1 x.2 '\n') = true

/-- The text has the words of a flag with a line feed between them, and nowhere with a space. -/
def BreaksFlag (s : List Char) : Prop :=
  ∃ x ∈ flagWords, containsWord s (joined x.1 x.2 '\n') = true ∧
    containsWord s (joined x.1 x.2 ' ') = false

/-- A line feed breaks the keyword of a clause, or one that makes a flag of a column. -/
def IsBroken (p : List Char) : Prop :=
  BreaksClause (trim p) ∨
    constrainsTable (trim p) = false ∧ ∃ h ∈ heading? (trim p), BreaksFlag h.rest

instance (s : List Char) : Decidable (BreaksClause s) :=
  inferInstanceAs (Decidable (∃ x ∈ _, _))

instance (s : List Char) : Decidable (BreaksFlag s) :=
  inferInstanceAs (Decidable (∃ x ∈ _, _))

instance (p : List Char) : Decidable (IsBroken p) :=
  inferInstanceAs (Decidable (_ ∨ _ ∧ ∃ h ∈ _, _))

theorem constrainsTable_iff_words :
    constrainsTable s = true ↔
      (∃ x ∈ clauseWords, startsWithWord s (joined x.1 x.2 ' ') = true) ∨
        ∃ word ∈ ["CONSTRAINT".toList, "CHECK".toList], startsWithWord s word = true := by
  have hwords : tableConstraints = clauseWords.map (fun x => joined x.1 x.2 ' ') ++
      ["CONSTRAINT".toList, "CHECK".toList] := rfl
  rw [constrainsTable, hwords, List.any_append, Bool.or_eq_true, List.any_map, List.any_eq_true,
    List.any_eq_true]
  rfl

theorem constrainsTable_breakLines (he : Blanks e) (s : List Char) :
    constrainsTable (breakLines (' ' :: e) s) = true ↔
      constrainsTable s = true ∨ e = [] ∧ BreaksClause s := by
  have hsolid : ∀ x ∈ clauseWords, Solid (lower x.1) ∧ Solid (lower x.2) := by decide
  have hpair : ∀ x ∈ clauseWords,
      startsWithWord (breakLines (' ' :: e) s) (joined x.1 x.2 ' ') = true ↔
        startsWithWord s (joined x.1 x.2 ' ') = true ∨
          e = [] ∧ startsWithWord s (joined x.1 x.2 '\n') = true :=
    fun x hx => startsWithWord_joined_breakLines he (hsolid x hx).1 (hsolid x hx).2 s
  have hword : ∀ word ∈ ["CONSTRAINT".toList, "CHECK".toList],
      startsWithWord (breakLines (' ' :: e) s) word = startsWithWord s word := by
    have hsolid : ∀ word ∈ ["CONSTRAINT".toList, "CHECK".toList], Solid (lower word) := by decide
    exact fun word hword =>
      startsWithWord_breakLines he.space_cons (List.cons_ne_nil ' ' e) (hsolid word hword) s
  rw [constrainsTable_iff_words, constrainsTable_iff_words]
  constructor
  · rintro (⟨x, hx, h⟩ | ⟨word, hmem, h⟩)
    · rcases (hpair x hx).mp h with h | ⟨hnil, h⟩
      · exact .inl (.inl ⟨x, hx, h⟩)
      · exact .inr ⟨hnil, x, hx, h⟩
    · exact .inl (.inr ⟨word, hmem, hword word hmem ▸ h⟩)
  · rintro ((⟨x, hx, h⟩ | ⟨word, hmem, h⟩) | ⟨hnil, x, hx, h⟩)
    · exact .inl ⟨x, hx, (hpair x hx).mpr (.inl h)⟩
    · exact .inr ⟨word, hmem, (hword word hmem).symm ▸ h⟩
    · exact .inl ⟨x, hx, (hpair x hx).mpr (.inr ⟨hnil, h⟩)⟩

theorem containsWord_flag_breakLines {x : List Char × List Char} (hx : x ∈ flagWords)
    (he : Blanks e) (s : List Char) :
    containsWord (breakLines (' ' :: e) s) (joined x.1 x.2 ' ') = true ↔
      containsWord s (joined x.1 x.2 ' ') = true ∨
        e = [] ∧ containsWord s (joined x.1 x.2 '\n') = true := by
  have hsolid : ∀ x ∈ flagWords, Solid (lower x.1) ∧ Solid (lower x.2) := by decide
  exact containsWord_joined_breakLines he (hsolid x hx).1 (hsolid x hx).2 s

/-- A clause with a line feed within its keyword begins like a column, and like no clause. -/
theorem BreaksClause.isSome_heading? (h : BreaksClause s) :
    constrainsTable s = false ∧ (heading? s).isSome = true := by
  obtain ⟨⟨v, w⟩, hx, hs⟩ := h
  have hletters : ∀ x ∈ clauseWords, x.1.all Char.isAlpha = true ∧ x.2.all Char.isAlpha = true ∧
      lower x.1 ≠ [] ∧ lower x.2 ≠ [] := by decide
  have hapart : ∀ x ∈ clauseWords, ∀ word ∈ tableConstraints,
      Apart (lower (joined x.1 x.2 '\n')) (lower word) := by decide
  constructor
  · rw [constrainsTable, List.any_eq_false]
    intro word hword hstart
    obtain ⟨h₁, h₂⟩ := hapart _ hx word hword
    exact (List.prefix_or_prefix_of_prefix (startsWithWord_iff.mp hs)
      (startsWithWord_iff.mp hstart)).elim h₁ h₂
  · obtain ⟨hv, hw, hv', hw'⟩ := hletters _ hx
    obtain ⟨r, hr⟩ := Option.isSome_iff_exists.mp hs
    obtain ⟨k, rfl, hk⟩ := dropWord?_sameLetter_eq_some_iff.mp hr
    rw [lower_joined rfl] at hk
    obtain ⟨n, k, rfl, hn, hk⟩ := List.map_eq_append_iff.mp hk
    obtain ⟨c, y, rfl, hc, hy⟩ := List.map_eq_cons_iff.mp hk
    obtain rfl := (toLower_eq_iff (by decide)).mp hc
    have hnall := isAlpha_of_isWord hv (isWord_iff.mpr hn)
    have hyall := isAlpha_of_isWord hw (isWord_iff.mpr hy)
    have hne : n ≠ [] := by
      rintro rfl
      exact hv' hn.symm
    obtain ⟨a, y, rfl⟩ : ∃ a u, y = a :: u := List.exists_cons_of_ne_nil fun hnil => by
      subst hnil
      exact hw' hy.symm
    have hletter := hyall a List.mem_cons_self
    have hname : ∀ c ∈ n, isNameChar c = true := fun c hc =>
      isNameChar_of_isTypeChar (isTypeChar_of_isAlpha (hnall c hc))
    have hbreak : Blanks ['\n'] := List.forall_mem_singleton.mpr (by decide)
    obtain ⟨h, hh, -⟩ := exists_heading? hne hname (List.cons_ne_nil _ _) hbreak
      (isTypeChar_of_isAlpha hletter) (y ++ r)
    simpa using congrArg Option.isSome hh

/-! ## Definitions with longer line breaks -/

/-- The columns that a segment defines, which are one or none. -/
def definedIn (s : List Char) : List Column :=
  if constrainsTable s then [] else (Column.ofSegment? s).toList

theorem blanks_joinLines (he : Blanks e) : Blanks (joinLines e) := by
  intro c hc
  obtain ⟨d, hd, rfl⟩ := List.mem_map.mp hc
  split
  · decide
  · exact he d hd

theorem columnsOf_breakLines (he : Blanks e) (h : '\r' ∉ p) :
    columnsOf (breakLines e p) = definedIn (breakLines (joinLines e) (trim p)) := by
  rw [columnsOf, joinLines_breakLines h, trim_breakLines (blanks_joinLines he)]
  rfl

theorem columnsOf_eq_definedIn (h : '\r' ∉ p) :
    columnsOf p = definedIn (breakLines [' '] (trim p)) := by
  have hfeed := columnsOf_breakLines (e := ['\n']) (by simp [Blanks]; decide) h
  rwa [breakLines_self] at hfeed

theorem Heading.column_breakLines (he : Blanks e) (h : Heading) :
    (h.breakLines (' ' :: e)).column =
      { h.column with
        primaryKey := containsWord (Text.breakLines (' ' :: e) h.rest) Flag.primaryKey.words
        notNull := containsWord (Text.breakLines (' ' :: e) h.rest) Flag.notNull.words } := by
  have hunique := containsWord_breakLines (w := Flag.unique.words) he.space_cons
    (List.cons_ne_nil ' ' e) (by decide) h.rest
  rw [column, column, breakLines, hunique]

/-- With more than one blank in place of a line feed a segment is read as with the line feed. -/
theorem definedIn_breakLines (he : Blanks e) (hne : e ≠ []) (h : ',' ∉ s) :
    definedIn (breakLines (' ' :: e) s) = definedIn s := by
  have hclause : constrainsTable (breakLines (' ' :: e) s) = constrainsTable s := by
    rw [Bool.eq_iff_iff, constrainsTable_breakLines he]
    simp [hne]
  have hflag : ∀ x ∈ flagWords, ∀ t, containsWord (breakLines (' ' :: e) t) (joined x.1 x.2 ' ') =
      containsWord t (joined x.1 x.2 ' ') := by
    intro x hx t
    rw [Bool.eq_iff_iff, containsWord_flag_breakLines hx he]
    simp [hne]
  have hcolumn : ∀ h : Heading, (h.breakLines (' ' :: e)).column = h.column := by
    intro h
    have hkey := hflag ("PRIMARY".toList, "KEY".toList) (by decide) h.rest
    have hnull := hflag ("NOT".toList, "NULL".toList) (by decide) h.rest
    rw [Heading.column_breakLines he]
    exact congrArg₂ (fun a b => { h.column with primaryKey := a, notNull := b }) hkey hnull
  rw [definedIn, hclause, ofSegment?_eq_map, definedIn, ofSegment?_eq_map,
    heading?_breakLines he.space_cons (List.cons_ne_nil ' ' e) h,
    Option.map_map, show Heading.column ∘ Heading.breakLines (' ' :: e) = Heading.column from
      funext hcolumn]

/-- A space for each line feed leaves the flags of a column as they are, unless it makes one. -/
theorem Heading.column_breakLines_space_iff (h : Heading) :
    (h.breakLines [' ']).column = h.column ↔ ¬BreaksFlag h.rest := by
  have hflag : ∀ x ∈ flagWords, (containsWord (Text.breakLines [' '] h.rest) (joined x.1 x.2 ' ') =
      containsWord h.rest (joined x.1 x.2 ' ') ↔
        ¬(containsWord h.rest (joined x.1 x.2 '\n') = true ∧
          containsWord h.rest (joined x.1 x.2 ' ') = false)) := by
    intro x hx
    have hiff := containsWord_flag_breakLines hx (e := []) (by simp [Blanks]) h.rest
    rw [Bool.eq_iff_iff, hiff]
    cases containsWord h.rest (joined x.1 x.2 ' ') <;> simp
  have hkey := hflag ("PRIMARY".toList, "KEY".toList) (by decide)
  have hnull := hflag ("NOT".toList, "NULL".toList) (by decide)
  have hparts : (h.breakLines [' ']).column = h.column ↔
      containsWord (Text.breakLines [' '] h.rest) Flag.primaryKey.words =
          containsWord h.rest Flag.primaryKey.words ∧
        containsWord (Text.breakLines [' '] h.rest) Flag.notNull.words =
          containsWord h.rest Flag.notNull.words := by
    rw [Heading.column_breakLines (by simp [Blanks])]
    simp [column]
  rw [hparts]
  refine (and_congr hkey hnull).trans ?_
  rw [← not_or, BreaksFlag, flagWords]
  simp only [List.exists_mem_cons_iff, List.not_mem_nil, false_and, exists_false, or_false]

/-- With a space for each line feed a segment defines the same, or nothing more. -/
theorem definedIn_space_iff (h : ',' ∉ trim p) :
    (definedIn (breakLines [' '] (trim p)) = definedIn (trim p) ↔ ¬IsBroken p) ∧
      (definedIn (breakLines [' '] (trim p))).length ≤ (definedIn (trim p)).length := by
  have hclause := constrainsTable_breakLines (e := []) (by simp [Blanks]) (trim p)
  have hheading := heading?_breakLines blanks_space (by simp) h
  simp only [definedIn, ofSegment?_eq_map, hheading]
  by_cases hbreaks : BreaksClause (trim p)
  · obtain ⟨hnone, hsome⟩ := hbreaks.isSome_heading?
    obtain ⟨x, hx⟩ := Option.isSome_iff_exists.mp hsome
    rw [if_pos (hclause.mpr (.inr ⟨rfl, hbreaks⟩)), hnone, hx]
    exact ⟨iff_of_false (by simp) fun h => h (.inl hbreaks), Nat.zero_le _⟩
  · have hsame : constrainsTable (breakLines [' '] (trim p)) = constrainsTable (trim p) := by
      rw [Bool.eq_iff_iff, hclause]
      simp [hbreaks]
    rw [hsame, IsBroken, or_iff_right hbreaks]
    cases hc : constrainsTable (trim p) with
    | true => simp
    | false =>
      cases hx : heading? (trim p) with
      | none => simp
      | some x => simpa using x.column_breakLines_space_iff

/-! ## Tables -/

/-- Lists that are put together from no longer parts are equal just if the parts are. -/
theorem flatMap_eq_flatMap_iff {α β : Type} {f g : α → List β} {l : List α}
    (hle : ∀ a ∈ l, (f a).length ≤ (g a).length) :
    (l.flatMap f = l.flatMap g ↔ ∀ a ∈ l, f a = g a) ∧
      (l.flatMap f).length ≤ (l.flatMap g).length := by
  induction l with
  | nil => simp
  | cons a l ih =>
    obtain ⟨ha, hle⟩ := List.forall_mem_cons.mp hle
    obtain ⟨heq, hlen⟩ := ih hle
    rw [List.flatMap_cons, List.flatMap_cons, List.forall_mem_cons, ← heq, List.length_append,
      List.length_append]
    refine ⟨⟨fun h => ?_, fun h => by rw [h.1, h.2]⟩, by omega⟩
    have hsum := congrArg List.length h
    rw [List.length_append, List.length_append] at hsum
    exact List.append_inj h (by omega)

/-- A carriage return and a line feed. -/
def crlf : List Char := ['\r', '\n']

theorem blanks_crlf : Blanks crlf := by
  intro c hc
  simp only [crlf, List.mem_cons, List.not_mem_nil, or_false] at hc
  rcases hc with rfl | rfl <;> decide

theorem columnsOf_crlf (hr : '\r' ∉ p) (hc : ',' ∉ trim p) :
    columnsOf (breakLines crlf p) = definedIn (trim p) := by
  rw [columnsOf_breakLines blanks_crlf hr]
  exact definedIn_breakLines blanks_space (by simp) hc

theorem definedColumns_crlf_iff (h : '\r' ∉ b) :
    (definedColumns .naive b = definedColumns .naive (breakLines crlf b) ↔
      ∀ p ∈ splitNaive b, ¬IsBroken p) ∧
    (definedColumns .naive b).length ≤
      (definedColumns .naive (breakLines crlf b)).length := by
  have hpiece : ∀ p ∈ splitNaive b,
      (columnsOf p = columnsOf (breakLines crlf p) ↔ ¬IsBroken p) ∧
        (columnsOf p).length ≤ (columnsOf (breakLines crlf p)).length := by
    intro p hp
    obtain ⟨hcomma, hsub⟩ := mem_splitNaive hp
    have hr : '\r' ∉ p := fun hmem => h (hsub hmem)
    have hc : ',' ∉ trim p := fun hmem => hcomma ((isInfix_trim p).subset hmem)
    rw [columnsOf_eq_definedIn hr, columnsOf_crlf hr hc]
    exact definedIn_space_iff hc
  have hcolumns : definedColumns .naive (breakLines crlf b) =
      (splitNaive b).flatMap fun p => columnsOf (breakLines crlf p) := by
    rw [definedColumns_eq, pieces, splitNaive_breakLines blanks_crlf, List.flatMap_map]
  obtain ⟨heq, hle⟩ := flatMap_eq_flatMap_iff fun p hp => (hpiece p hp).2
  rw [hcolumns, definedColumns_eq, pieces]
  exact ⟨heq.trans (forall₂_congr fun p hp => (hpiece p hp).1), hle⟩

theorem ofStatement?_crlf_iff (h : '\r' ∉ b) (n : List Char) :
    ((Table.ofStatement? .naive n b).toList =
        (Table.ofStatement? .naive n (breakLines crlf b)).toList ↔
      (stripQuotes n ≠ [] → ∀ p ∈ splitNaive b, ¬IsBroken p)) ∧
    (Table.ofStatement? .naive n b).toList.length ≤
      (Table.ofStatement? .naive n (breakLines crlf b)).toList.length := by
  obtain ⟨hiff, hle⟩ := definedColumns_crlf_iff h
  rw [← hiff, Table.ofStatement?, Table.ofStatement?]
  generalize definedColumns .naive b = cs at hle ⊢
  generalize definedColumns .naive (breakLines crlf b) = cs' at hle ⊢
  by_cases hn : stripQuotes n = []
  · simp [hn]
  · cases cs with
    | nil => cases cs' <;> simp [hn]
    | cons c cs =>
      cases cs' with
      | nil => simp at hle
      | cons c' cs' => simp [hn]

/-- A carriage return in front of each line feed leaves the tables as they are just if no line
feed breaks a keyword of two words in a definition of a statement that has a name. -/
theorem tables_crlf_iff (h : '\r' ∉ s) :
    tables .naive (breakLines crlf s) = tables .naive s ↔
      ∀ x ∈ createTable.findAll s, stripQuotes x.1 ≠ [] → ∀ p ∈ splitNaive x.2, ¬IsBroken p := by
  have hstatement : ∀ x ∈ createTable.findAll s, _ := fun x hx =>
    ofStatement?_crlf_iff (fun hmem => h (body_subset hx hmem)) x.1
  have htables : tables .naive (breakLines crlf s) = (createTable.findAll s).flatMap
      fun x => (Table.ofStatement? .naive x.1 (breakLines crlf x.2)).toList := by
    rw [tables_eq, findAll_createTable_breakLines blanks_crlf (by simp [crlf]),
      List.filterMap_map, List.filterMap_eq_flatMap_toList]
    rfl
  rw [eq_comm, htables, tables_eq, List.filterMap_eq_flatMap_toList,
    (flatMap_eq_flatMap_iff fun x hx => (hstatement x hx).2).1]
  exact forall₂_congr fun x hx => (hstatement x hx).1

theorem tables_crlf_iff_lines :
    '\r' ∉ "CREATE\nTABLE t (a\nINT\n,b INT NOT NULL\nUNIQUE,\nPRIMARY KEY\n(a))\n;".toList ∧
      tables .naive (breakLines crlf
          "CREATE\nTABLE t (a\nINT\n,b INT NOT NULL\nUNIQUE,\nPRIMARY KEY\n(a))\n;".toList) =
        tables .naive
          "CREATE\nTABLE t (a\nINT\n,b INT NOT NULL\nUNIQUE,\nPRIMARY KEY\n(a))\n;".toList :=
  ⟨by decide, (tables_crlf_iff (by decide)).mpr (by decide +kernel)⟩

/-- A flag that has a line feed between its words is lost. -/
theorem not_forall_tables_crlf_eq :
    ¬∀ s, '\r' ∉ s → tables .naive (breakLines crlf s) = tables .naive s := by
  intro h
  have heq := h "CREATE TABLE t (id INT NOT\nNULL);".toList (by decide)
  exact absurd heq (by decide +kernel)

end Salvage.Ddl
