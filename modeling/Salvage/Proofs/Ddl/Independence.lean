import Salvage.Proofs.Ddl.Opening

/-! # Statements one after another

A text that ends with the end of a statement is read apart from any text behind it, unless
a statement with an empty body is left open there. The body of a table is never empty, so
the search for its end goes on into the text that follows, and takes tables and columns
from it.
-/

namespace Salvage.Ddl

open Text

variable {b n r s t u v w : List Char} {x : List Char × List Char} {mode : SplitMode}

/-- The text is empty or ends with the end of a statement. -/
def IsComplete (s : List Char) : Prop :=
  s = [] ∨ ∃ b w, Blanks w ∧ s = b ++ ')' :: (w ++ [';'])

/-- A statement whose body is empty, and nothing behind it. -/
def HasEmptyBody (s : List Char) : Prop :=
  ∃ n w, Blanks w ∧ opening? s = some (n, ')' :: (w ++ [';']))

/-- A text that ends with the end of a statement, or a part of such an end. -/
inductive IsRemainder : List Char → Prop where
  | nil : IsRemainder []
  | blanks {w : List Char} (hw : Blanks w) : IsRemainder (w ++ [';'])
  | statement (b : List Char) {w : List Char} (hw : Blanks w) :
      IsRemainder (b ++ ')' :: (w ++ [';']))

theorem IsComplete.isRemainder (h : IsComplete s) : IsRemainder s := by
  rcases h with rfl | ⟨b, w, hw, rfl⟩
  · exact .nil
  · exact .statement b hw

namespace IsRemainder

theorem of_cons {c : Char} (h : IsRemainder (c :: s)) : IsRemainder s := by
  generalize ht : c :: s = t at h
  cases h with
  | nil => simp at ht
  | @blanks w hw =>
    obtain _ | ⟨d, w⟩ := w
    · obtain ⟨-, rfl⟩ := List.cons.inj ht
      exact .nil
    · obtain ⟨-, rfl⟩ := List.cons.inj ht
      exact .blanks fun e he => hw e (List.mem_cons_of_mem d he)
  | @statement b w hw =>
    obtain _ | ⟨d, b⟩ := b
    · obtain ⟨-, rfl⟩ := List.cons.inj ht
      exact .blanks hw
    · obtain ⟨-, rfl⟩ := List.cons.inj ht
      exact .statement b hw

theorem of_append (h : IsRemainder (b ++ s)) : IsRemainder s := by
  induction b with
  | nil => exact h
  | cons c b ih => exact ih h.of_cons

theorem semicolon_mem (h : IsRemainder s) (hne : s ≠ []) : ';' ∈ s := by
  cases h with
  | nil => exact absurd rfl hne
  | blanks => simp
  | statement => simp

end IsRemainder

/-! ## One statement -/

theorem exists_of_createTable_run (h : createTable.run s = some (x, r)) :
    ∃ t, opening? s = some (x.1, t) ∧ upTo statementEnd? t = some (x.2, r) := by
  rw [createTable_run] at h
  obtain ⟨⟨n, t⟩, ht, h⟩ := Option.bind_eq_some_iff.mp h
  obtain ⟨⟨body, rest⟩, hup, heq⟩ := Option.map_eq_some_iff.mp h
  obtain ⟨rfl, rfl⟩ := Prod.mk.inj heq
  exact ⟨t, ht, hup⟩

theorem semicolon_mem_of_statementEnd? (h : statementEnd? s = some r) : ';' ∈ s := by
  obtain ⟨g, rfl, -⟩ := statementEnd?_eq_some_iff.mp h
  simp

theorem upTo_statementEnd?_append (h : upTo statementEnd? s = some (b, r)) (t : List Char) :
    upTo statementEnd? (s ++ t) = some (b, r ++ t) := by
  induction s generalizing b with
  | nil => simp [upTo] at h
  | cons c s ih =>
    cases hs : statementEnd? s with
    | some u =>
      rw [upTo_cons_of_close hs] at h
      obtain ⟨rfl, rfl⟩ := Prod.mk.inj (Option.some.inj h)
      obtain ⟨g, rfl, hg⟩ := statementEnd?_eq_some_iff.mp hs
      exact upTo_cons_of_close (statementEnd?_eq_some_iff.mpr ⟨g, by simp, hg⟩)
    | none =>
      rw [upTo_cons hs] at h
      obtain ⟨b, hb, rfl⟩ := extend_eq_some_iff.mp h
      obtain ⟨u, rfl, -, hu⟩ := exists_of_upTo hb
      have hmem : ';' ∈ b ++ u := List.mem_append_right b (semicolon_mem_of_statementEnd? hu)
      rw [List.cons_append, upTo_cons (statementEnd?_append_eq_none hmem hs t), ih hb]
      rfl

/-- A statement that is found ends where it did. -/
theorem createTable_run_append (h : createTable.run s = some (x, r)) (t : List Char) :
    createTable.run (s ++ t) = some (x, r ++ t) := by
  obtain ⟨u, hopen, hup⟩ := exists_of_createTable_run h
  obtain ⟨a, rfl, -⟩ := isDelimiter_closing.exists_of_opening? (by decide) hopen
  obtain ⟨v, rfl, -, hend⟩ := exists_of_upTo hup
  have hmem : ';' ∈ a ++ (x.2 ++ v) := by simp [semicolon_mem_of_statementEnd? hend]
  simp only [createTable_run, isDelimiter_semicolon.opening?_append hmem, hopen, Option.map_some,
    Option.bind_some, upTo_statementEnd?_append hup]

theorem exists_of_run (h : createTable.run s = some (x, r)) : ∃ a, s = a ++ r := by
  obtain ⟨u, hopen, hup⟩ := exists_of_createTable_run h
  obtain ⟨a, rfl, -⟩ := isDelimiter_closing.exists_of_opening? (by decide) hopen
  obtain ⟨v, rfl, -, hend⟩ := exists_of_upTo hup
  obtain ⟨g, rfl, -⟩ := statementEnd?_eq_some_iff.mp hend
  exact ⟨a ++ (x.2 ++ ')' :: (g ++ [';'])), by simp⟩

/-- No keyword begins with the end of a statement. -/
theorem opening?_blanks (hw : Blanks w) (t : List Char) : opening? (w ++ ';' :: t) = none := by
  cases w with
  | nil => exact opening?_cons (by decide) t
  | cons c w => exact opening?_blank (hw c List.mem_cons_self) _

/-- Where no statement is found and none is left open, none is found with more text. -/
theorem IsRemainder.createTable_run_append (hs : IsRemainder s) (hne : s ≠ [])
    (hopen : ¬HasEmptyBody s) (h : createTable.run s = none) (t : List Char) :
    createTable.run (s ++ t) = none := by
  have hmem := hs.semicolon_mem hne
  rw [createTable_run, isDelimiter_semicolon.opening?_append hmem]
  cases hs with
  | nil => exact absurd rfl hne
  | blanks hw => rw [opening?_blanks hw]; rfl
  | @statement b w hw =>
    cases hx : opening? (b ++ ')' :: (w ++ [';'])) with
    | none => rfl
    | some x =>
      obtain ⟨n, r⟩ := x
      obtain ⟨a, heq, ha⟩ := isDelimiter_closing.exists_of_opening? (by decide) hx
      obtain ⟨m, rfl, rfl⟩ := exists_of_append_cons_eq_append heq ha
      by_cases hempty : m = []
      · subst hempty
        exact absurd ⟨n, w, hw, hx⟩ hopen
      · have hend : (statementEnd? (')' :: (w ++ [';']))).isSome := by
          rw [statementEnd?_eq_some_iff.mpr ⟨w, rfl, hw⟩]
          rfl
        have hup := isSome_upTo_append hend hempty
        rw [createTable_run, hx, Option.bind_some, Option.map_eq_none_iff] at h
        simp [h] at hup

/-! ## Texts one after another -/

open Pattern

/-- The statements of a text that leaves none open are found apart from those behind it. -/
theorem IsRemainder.findAll_append (hs : IsRemainder s)
    (hopen : ∀ u, createTable.Reaches s u → ¬HasEmptyBody u) (t : List Char) :
    createTable.findAll (s ++ t) = createTable.findAll s ++ createTable.findAll t := by
  induction hn : s.length using Nat.strong_induction_on generalizing s with
  | h k ih =>
    subst hn
    cases hrun : createTable.run s with
    | some y =>
      obtain ⟨x, r⟩ := y
      obtain ⟨a, rfl⟩ := exists_of_run hrun
      rw [findAll_of_run_eq_some hrun, findAll_of_run_eq_some (Ddl.createTable_run_append hrun t),
        ih r.length (createTable.shorter hrun) hs.of_append
          (fun u hu => hopen u (.found hrun hu)) rfl, List.cons_append]
    | none =>
      obtain _ | ⟨c, s⟩ := s
      · rw [findAll_nil, List.nil_append, List.nil_append]
      · have hmore : createTable.run (c :: (s ++ t)) = none :=
          hs.createTable_run_append (List.cons_ne_nil c s) (hopen _ (.refl _)) hrun t
        rw [findAll_cons hrun, List.cons_append, findAll_cons hmore,
          ih s.length (by simp) hs.of_cons (fun u hu => hopen u (.skip hrun hu)) rfl]

/-- Up to the first statement that is left open all is found as it was. -/
theorem IsRemainder.exists_of_reaches (hs : IsRemainder s) (hu : createTable.Reaches s u)
    (hopen : HasEmptyBody u) :
    ∃ v xs, HasEmptyBody v ∧ createTable.findAll s = xs ++ createTable.findAll v ∧
      ∀ t, createTable.findAll (s ++ t) = xs ++ createTable.findAll (v ++ t) := by
  induction hu with
  | refl s => exact ⟨s, [], hopen, rfl, fun t => rfl⟩
  | @found s r u x hrun _ ih =>
    obtain ⟨a, rfl⟩ := exists_of_run hrun
    obtain ⟨v, xs, hv, hfind, hmore⟩ := ih hs.of_append hopen
    refine ⟨v, x :: xs, hv, ?_, fun t => ?_⟩
    · rw [findAll_of_run_eq_some hrun, hfind, List.cons_append]
    · rw [findAll_of_run_eq_some (Ddl.createTable_run_append hrun t), hmore, List.cons_append]
  | @skip c r u hrun _ ih =>
    by_cases hfirst : HasEmptyBody (c :: r)
    · exact ⟨c :: r, [], hfirst, rfl, fun t => rfl⟩
    · obtain ⟨v, xs, hv, hfind, hmore⟩ := ih hs.of_cons hopen
      refine ⟨v, xs, hv, ?_, fun t => ?_⟩
      · rw [findAll_cons hrun, hfind]
      · have hnone : createTable.run (c :: (r ++ t)) = none :=
          hs.createTable_run_append (List.cons_ne_nil c r) hfirst hrun t
        rw [List.cons_append, findAll_cons hnone, hmore]

/-! ## Tables -/

theorem name_of_ofStatement? {t : Table} (h : Table.ofStatement? mode n b = some t) :
    t.name = String.ofList (stripQuotes n) := by
  simp only [Table.ofStatement?] at h
  split at h
  · simp at h
  · obtain rfl := Option.some.inj h
    rfl

/-- The text up to the end of a statement that creates a table with one column. -/
def oneColumn (n : List Char) : List Char := openingText n ++ ['c', ' ', 'd']

theorem createTable_run_oneColumn (hne : n ≠ []) (hn : ∀ c ∈ n, isTableNameChar c = true) :
    createTable.run (oneColumn n ++ [')', ';']) = some ((n, ['c', ' ', 'd']), []) := by
  rw [oneColumn, List.append_assoc]
  exact (isOpening_openingText n).createTable_run_eq hne hn (by simp) (by decide) (g := [])
    (by simp [Blanks]) []

theorem closing_notMem_oneColumn (hn : ∀ c ∈ n, isTableNameChar c = true) :
    ')' ∉ oneColumn n := by
  have hn' : ')' ∉ n := fun h => absurd (hn _ h) (by decide)
  simp [oneColumn, openingText, hn']

theorem exists_table_oneColumn (mode : SplitMode) (hn : stripQuotes n ≠ []) :
    ∃ t, Table.ofStatement? mode n ['c', ' ', 'd'] = some t := by
  have hcolumns : definedColumns mode ['c', ' ', 'd'] ≠ [] := by cases mode <;> decide +kernel
  exact ⟨_, by rw [Table.ofStatement?, if_neg (by simp [hn, hcolumns])]⟩

/-- The body that was left open takes the next statement up to its end. -/
theorem HasEmptyBody.exists_run (hs : HasEmptyBody s) :
    ∃ n, n ≠ [] ∧ (∀ c ∈ n, isTableNameChar c = true) ∧
      ∀ n', (∀ c ∈ n', isTableNameChar c = true) →
        ∃ b, createTable.run (s ++ (oneColumn n' ++ [')', ';'])) = some ((n, b), []) := by
  obtain ⟨n, w, hw, hopen⟩ := hs
  obtain ⟨t, -, ht⟩ := Option.bind_eq_some_iff.mp hopen
  obtain ⟨g, -, hne, hn, -⟩ := namedOpening?_eq_some_iff.mp ht
  obtain ⟨a, rfl, -⟩ := isDelimiter_closing.exists_of_opening? (by decide) hopen
  refine ⟨n, hne, hn, fun n' hn' => ⟨')' :: (w ++ ';' :: oneColumn n'), ?_⟩⟩
  have hmem : ';' ∈ a ++ ')' :: (w ++ [';']) := by simp
  have hclosing : ')' ∉ w ++ ';' :: oneColumn n' := by
    simp [hw.notMem (c := ')') (by decide), closing_notMem_oneColumn hn']
  have hup : upTo statementEnd? (')' :: ((w ++ ';' :: oneColumn n') ++ [')', ';'])) =
      some (')' :: (w ++ ';' :: oneColumn n'), []) := by
    refine upTo_append (statementEnd?_eq_some_iff.mpr ⟨[], rfl, by simp [Blanks]⟩) ?_
    intro u hu hsuffix
    obtain ⟨d, u, rfl⟩ := List.exists_cons_of_ne_nil hu
    cases hend : statementEnd? (d :: u ++ [')', ';']) with
    | none => rfl
    | some r =>
      obtain ⟨f, heq, -⟩ := statementEnd?_eq_some_iff.mp hend
      obtain ⟨rfl, -⟩ := List.cons.inj heq
      exact absurd (hsuffix.subset List.mem_cons_self) hclosing
  have hassoc : ')' :: (w ++ [';']) ++ (oneColumn n' ++ [')', ';']) =
      ')' :: ((w ++ ';' :: oneColumn n') ++ [')', ';']) := by simp
  simp only [createTable_run, isDelimiter_semicolon.opening?_append hmem, hopen, Option.map_some,
    Option.bind_some, hassoc, hup]

/-- A statement left open changes what is read of some text behind it. -/
theorem IsRemainder.exists_tables_append_ne (mode : SplitMode) (hs : IsRemainder s)
    (hu : createTable.Reaches s u) (hopen : HasEmptyBody u) :
    ∃ t, tables mode (s ++ t) ≠ tables mode s ++ tables mode t := by
  obtain ⟨v, xs, hv, hfind, hmore⟩ := hs.exists_of_reaches hu hopen
  obtain ⟨n, hne, hn, hrun⟩ := hv.exists_run
  have hn' : ∀ c ∈ n ++ ['x'], isTableNameChar c = true := by
    intro c hc
    rcases List.mem_append.mp hc with hc | hc
    · exact hn c hc
    · obtain rfl := List.mem_singleton.mp hc
      decide
  have hstrip : stripQuotes (n ++ ['x']) = stripQuotes n ++ ['x'] := by
    simp [stripQuotes, isIdentifierQuote]
  obtain ⟨b, hb⟩ := hrun _ hn'
  obtain ⟨table, htable⟩ := exists_table_oneColumn (n := n ++ ['x']) mode (by simp [hstrip])
  refine ⟨oneColumn (n ++ ['x']) ++ [')', ';'], fun heq => ?_⟩
  have hleft : createTable.findAll (v ++ (oneColumn (n ++ ['x']) ++ [')', ';'])) = [(n, b)] := by
    rw [findAll_of_run_eq_some hb, findAll_nil]
  have hright : createTable.findAll (oneColumn (n ++ ['x']) ++ [')', ';']) =
      [(n ++ ['x'], ['c', ' ', 'd'])] := by
    rw [findAll_of_run_eq_some (createTable_run_oneColumn (by simp) hn'), findAll_nil]
  rw [tables_eq, tables_eq, tables_eq, hmore, hfind, hleft, hright, List.filterMap_append,
    List.filterMap_append, List.append_assoc] at heq
  have hmem : table ∈ [(n, b)].filterMap fun x => Table.ofStatement? mode x.1 x.2 := by
    rw [List.append_cancel_left heq]
    simp [htable]
  obtain ⟨y, hy, hfirst⟩ := List.mem_filterMap.mp hmem
  obtain rfl := List.mem_singleton.mp hy
  have hnames := (name_of_ofStatement? hfirst).symm.trans (name_of_ofStatement? htable)
  rw [String.ofList_inj, hstrip] at hnames
  simp at hnames

/-- A text that ends with the end of a statement is read apart from every text behind it
just when the search for statements leaves no empty body open there. -/
theorem tables_append_iff (mode : SplitMode) (hs : IsComplete s) :
    (∀ t, tables mode (s ++ t) = tables mode s ++ tables mode t) ↔
      ∀ u, createTable.Reaches s u → ¬HasEmptyBody u := by
  constructor
  · intro h u hu hopen
    obtain ⟨t, ht⟩ := hs.isRemainder.exists_tables_append_ne mode hu hopen
    exact ht (h t)
  · intro h t
    rw [tables_eq, hs.isRemainder.findAll_append h, List.filterMap_append, ← tables_eq, ← tables_eq]

theorem tables_append_iff_one :
    IsComplete "CREATE TABLE t(a b) ;".toList ∧ ∀ t, tables .parenDepth
      ("CREATE TABLE t(a b) ;".toList ++ t) =
        tables .parenDepth "CREATE TABLE t(a b) ;".toList ++ tables .parenDepth t := by
  have hs : IsComplete "CREATE TABLE t(a b) ;".toList :=
    .inr ⟨"CREATE TABLE t(a b".toList, [' '], blanks_space, by decide⟩
  have hopen : opening? "CREATE TABLE t(a b) ;".toList =
      some (['t'], ['a', ' ', 'b', ')', ' ', ';']) := by decide +kernel
  have hrun : createTable.run "CREATE TABLE t(a b) ;".toList =
      some ((['t'], ['a', ' ', 'b']), []) := by decide +kernel
  refine ⟨hs, (tables_append_iff .parenDepth hs).mpr ?_⟩
  generalize "CREATE TABLE t(a b) ;".toList = s at hopen hrun
  rintro u hu ⟨n, w, -, hempty⟩
  cases hu with
  | refl => simp [hopen] at hempty
  | found h hu =>
    obtain ⟨-, rfl⟩ := Prod.mk.inj (Option.some.inj (hrun.symm.trans h))
    cases hu with
    | refl => exact absurd hempty (by simp [show opening? [] = none from rfl])
    | found h => simp [Pattern.run_nil] at h
  | skip h => simp [hrun] at h

/-- An empty body takes a column of the next table. -/
theorem not_forall_tables_append :
    ¬∀ mode s t, IsComplete s → tables mode (s ++ t) = tables mode s ++ tables mode t := by
  intro h
  have happend := h .naive "CREATE TABLE t ();".toList "CREATE TABLE u (a INT, b TEXT);".toList
    (.inr ⟨"CREATE TABLE t (".toList, [], by simp [Blanks], by decide⟩)
  exact absurd happend (by decide +kernel)

end Salvage.Ddl
