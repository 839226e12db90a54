import Mathlib.Data.List.Flatten
import Salvage.Proofs.Ddl.Keywords

/-! # Comments in a body

The split by depth reads a comment up to the end of its line as one token, so the text of a
comment does not bear on how a body is split. But it writes the comment back in front of the
definition behind it, and there is no end of a line in a segment. What follows the comment is
then a part of it, and a segment that starts with one defines no column.
-/

namespace Salvage.Ddl

open Text Token

variable {g n p t : List Char} {c : Char} {cs : List Column}

/-- The text of a comment with the end of its line, if there is one. -/
def commentText : Option (List Char) → List Char
  | none => []
  | some t => '-' :: '-' :: (t ++ ['\n'])

/-- A definition in a body, and what stands between the comma and the definition: blanks, and
a comment if there is one. -/
structure Entry where
  before : List Char
  comment : Option (List Char)
  definition : List Char
  columns : List Column
  spacing : Spacing before
  notMem_comment : ∀ t ∈ comment, '\n' ∉ t ∧ ';' ∉ t
  isDefinition : IsDefinition (fun _ => True) .parenDepth definition columns

namespace Entry

def text (e : Entry) : List Char := e.before ++ (commentText e.comment ++ e.definition)

/-- The text without the comment. -/
def plain (e : Entry) : List Char := e.before ++ e.definition

end Entry

/-- What stands around the body in a statement that creates a table. -/
structure Frame where
  name : List Char
  wrapped : List Char
  opening : List Char
  gap : List Char
  name_ne_nil : name ≠ []
  isPlainNameChar : name.all isPlainNameChar = true
  isWrapped : IsWrapped name wrapped
  isOpening : IsOpening wrapped opening
  blanks : Blanks gap

/-- The statement with the parts of its body. -/
def Frame.statement (F : Frame) (ps : List (List Char)) : List Char :=
  F.opening ++ ([','].intercalate ps ++ ')' :: (F.gap ++ [';']))

/-! ## The token of a comment -/

theorem lexeme_comment (ht : '\n' ∉ t) (r : List Char) :
    lexeme '-' ('-' :: (t ++ '\n' :: r)) = some ('-' :: '-' :: (t ++ ['\n']), r) := by
  have hline : ∀ c ∈ t, (c != '\n') = true := by
    rintro c hc
    simpa using fun heq : c = '\n' => ht (heq ▸ hc)
  have hend : ∀ c ∈ ('\n' :: r).head?, (c != '\n') = false := by simp
  have hcomment : lineComment (t ++ '\n' :: r) = ('-' :: '-' :: (t ++ ['\n']), r) := by
    simp only [lineComment, run, takeWhile_append_of_head? hline hend,
      dropWhile_append_of_head? hline hend]
    simp
  have hstart : isWordStart '-' = false := by decide
  rw [lexeme, markedString_of_notMem (by decide)]
  simp [hstart, symbol, hcomment]

theorem givesBack_commentText {comment : Option (List Char)} (h : ∀ t ∈ comment, '\n' ∉ t)
    (r : List Char) : GivesBack (commentText comment) r := by
  cases comment with
  | none => exact .nil r
  | some t =>
    refine .of_read (read_of_lexeme (by decide) ?_)
    simpa using lexeme_comment (h t rfl) r

/-- No column is read behind the start of a comment. -/
theorem columnsOf_comment (hg : Spacing g) (t : List Char) :
    columnsOf (g ++ ('-' :: '-' :: t)) = [] := by
  have htight : Tight ['-', '-'] := ⟨⟨'-', rfl, by decide⟩, '-', rfl, by decide⟩
  have htrim : ∃ u, trim (joinLines (g ++ ('-' :: '-' :: t))) = '-' :: u := by
    rw [joinLines_append]
    exact ⟨_, trim_append hg.joinLines.blanks htight (joinLines t)⟩
  obtain ⟨u, hu⟩ := htrim
  have hnone : Column.ofSegment? ('-' :: u) = none := by
    have hname : takeSome isNameChar ('-' :: u) = none := by
      have hfirst : isNameChar '-' = false := by decide
      simp [takeSome, hfirst]
    rw [Column.ofSegment?, hname]
    rfl
  rw [columnsOf, hu, hnone]
  simp

/-! ## Pieces of a body -/

theorem IsDefinition.spacing_append {ok : List Char → Prop} {mode : SplitMode} (hg : Spacing g)
    (h : IsDefinition ok mode p cs) : IsDefinition ok mode (g ++ p) cs := by
  cases h with
  | column hg' hs hok hh =>
    rw [← List.append_assoc]
    exact .column (hg.append hg') hs hok hh
  | clause hg' hs hh =>
    rw [← List.append_assoc]
    exact .clause (hg.append hg') hs hh

namespace Entry

variable (e : Entry)

/-- The columns that are read of the entry. -/
def kept : List Column :=
  match e.comment with
  | none => columnsOf e.plain
  | some _ => []

theorem isDefinition_plain : IsDefinition (fun _ => True) .parenDepth e.plain e.columns :=
  e.isDefinition.spacing_append e.spacing

theorem isPiece_text : IsPiece e.text e.kept := by
  cases hcomment : e.comment with
  | none =>
    have htext : e.text = e.plain := by simp [text, hcomment, commentText, plain]
    rw [htext, kept, hcomment]
    exact e.isDefinition_plain.isPiece
  | some t =>
    rw [kept, hcomment]
    intro r hr
    -- The comment is given back as it is, and the tokens of the definition go on behind it.
    obtain ⟨ts, hts, hnested, -⟩ := e.isDefinition.isPiece r hr
    obtain ⟨us, hus, htext, hnested'⟩ := (givesBack_spacing e.spacing _).append
      (givesBack_commentText (fun t ht => (e.notMem_comment t ht).1) (e.definition ++ r))
    refine ⟨us ++ ts, by simpa [text] using hus.trans hts, hnested'.append hnested, ?_⟩
    rw [textOf_append, htext, hcomment, List.append_assoc]
    exact columnsOf_comment e.spacing _

theorem semicolon_notMem_text : ';' ∉ e.text := by
  have hgap : ';' ∉ e.before := e.spacing.blanks.notMem (by decide)
  have hcomment : ';' ∉ commentText e.comment := by
    cases h : e.comment with
    | none => exact List.not_mem_nil
    | some t => simp [commentText, (e.notMem_comment t h).2]
  simp [text, hgap, hcomment, e.isDefinition.semicolon_notMem]

theorem semicolon_notMem_plain : ';' ∉ e.plain := e.isDefinition_plain.semicolon_notMem

theorem text_ne_nil : e.text ≠ [] := by simp [text, e.isDefinition.ne_nil]

theorem plain_ne_nil : e.plain ≠ [] := e.isDefinition_plain.ne_nil

end Entry

/-- Entries in one piece each, with commas between them. -/
theorem hasPieces_intercalate {f : Entry → List Char} {k : Entry → List Column}
    (h : ∀ e, IsPiece (f e) (k e)) (e : Entry) (es : List Entry) :
    HasPieces ([','].intercalate ((e :: es).map f)) ((e :: es).flatMap k) := by
  induction es generalizing e with
  | nil => simpa using (h e).hasPieces
  | cons e' es ih => simpa using (h e).hasPieces_cons (ih e')

theorem notMem_intercalate {ps : List (List Char)} (hc : c ≠ ',') (h : ∀ p ∈ ps, c ∉ p) :
    c ∉ [','].intercalate ps := by
  induction ps with
  | nil => simp
  | cons p ps ih =>
    obtain ⟨hp, hps⟩ := List.forall_mem_cons.mp h
    cases ps with
    | nil => simpa using hp
    | cons q ps =>
      rw [List.intercalate_cons_cons]
      simp [hp, hc, ih hps]

/-! ## Statements with comments -/

/-- The table with a name and columns, if there is any column. -/
def Table.ofColumns (n : List Char) (cs : List Column) : List Table :=
  if cs = [] then [] else [⟨String.ofList n, cs⟩]

theorem Table.ofColumns_inj {cs' : List Column} :
    Table.ofColumns n cs = Table.ofColumns n cs' ↔ cs = cs' := by
  refine ⟨fun h => ?_, fun h => h ▸ rfl⟩
  unfold Table.ofColumns at h
  split_ifs at h with hnil hnil' hnil'
  · rw [hnil, hnil']
  · exact (Table.mk.inj (List.cons.inj h).1).2

theorem Frame.tables_eq (F : Frame) {ps : List (List Char)} (hne : [','].intercalate ps ≠ [])
    (hsemi : ';' ∉ [','].intercalate ps) (h : HasPieces ([','].intercalate ps) cs) :
    tables .parenDepth (F.statement ps) = Table.ofColumns F.name cs := by
  have hplain := List.all_eq_true.mp F.isPlainNameChar
  have hstrip := F.isWrapped.stripQuotes_eq hplain
  have hrun := F.isOpening.createTable_run_wrapped F.name_ne_nil hplain F.isWrapped hne hsemi
    F.blanks []
  rw [Frame.statement, Ddl.tables_eq, Pattern.findAll_of_run_eq_some hrun, Pattern.findAll_nil,
    Table.ofColumns]
  simp only [List.filterMap_cons, List.filterMap_nil, Table.ofStatement?, h.definedColumns_eq,
    hstrip, F.name_ne_nil, false_or]
  by_cases hnil : cs = [] <;> simp [hnil]

/-- A statement gives the table with the columns of its entries. -/
theorem Frame.tables_entries (F : Frame) {f : Entry → List Char} {k : Entry → List Column}
    (hpiece : ∀ e, IsPiece (f e) (k e)) (hsemi : ∀ e, ';' ∉ f e) (hne : ∀ e, f e ≠ []) (e : Entry)
    (es : List Entry) :
    tables .parenDepth (F.statement ((e :: es).map f)) =
      Table.ofColumns F.name ((e :: es).flatMap k) := by
  refine F.tables_eq ?_ ?_ (hasPieces_intercalate hpiece e es)
  · cases es <;> simp [hne]
  · exact notMem_intercalate (by decide) (by simp [hsemi])

theorem flatMap_kept (es : List Entry) :
    es.flatMap Entry.kept = (es.filter (·.comment = none)).flatMap (columnsOf ·.plain) := by
  induction es with
  | nil => rfl
  | cons e es ih => cases hcomment : e.comment <;> simp [Entry.kept, hcomment, ih]

/-- What is left out of a list by a filter gives nothing just if the list gives no more. -/
theorem flatMap_filter_eq_iff {α β : Type*} {q : α → Bool} {f : α → List β} {l : List α} :
    (l.filter q).flatMap f = l.flatMap f ↔ ∀ x ∈ l, q x = false → f x = [] := by
  induction l with
  | nil => simp
  | cons x l ih =>
    cases hx : q x with
    | true => simp [hx, ih]
    | false =>
      have hle : ((l.filter q).flatMap f).length ≤ (l.flatMap f).length :=
        (List.filter_sublist.flatMap f).length_le
      rw [List.filter_cons_of_neg (by simp [hx]), List.flatMap_cons]
      constructor
      · intro h
        -- Behind what `x` gives, the list has at least as much as the filtered one.
        have hnil : f x = [] := by
          have hlength := congrArg List.length h
          rw [List.length_append] at hlength
          exact List.eq_nil_of_length_eq_zero (by omega)
        rw [hnil, List.nil_append] at h
        simpa [hnil] using ih.mp h
      · intro h
        obtain ⟨hnil, hrest⟩ := List.forall_mem_cons.mp h
        rw [hnil hx, List.nil_append, ih.mpr hrest]

/-- A definition with a comment in front of it is not read. So comments can be left out just
if no definition behind one is that of a column. -/
theorem tables_comments (F : Frame) {e : Entry} (he : e.comment = none) (es : List Entry) :
    tables .parenDepth (F.statement ((e :: es).map Entry.text)) =
        tables .parenDepth
          (F.statement (((e :: es).filter (·.comment = none)).map Entry.plain)) ∧
      (tables .parenDepth (F.statement ((e :: es).map Entry.text)) =
          tables .parenDepth (F.statement ((e :: es).map Entry.plain)) ↔
        ∀ x ∈ es, x.comment ≠ none → columnsOf x.plain = []) := by
  have htext := F.tables_entries Entry.isPiece_text Entry.semicolon_notMem_text
    Entry.text_ne_nil e es
  have hplain := F.tables_entries (fun e => e.isDefinition_plain.isPiece)
    Entry.semicolon_notMem_plain Entry.plain_ne_nil e
  rw [htext, flatMap_kept]
  constructor
  · rw [List.filter_cons_of_pos (by simpa using he), hplain]
  · rw [hplain, Table.ofColumns_inj, flatMap_filter_eq_iff]
    simp [he]

/-- The entry of a column in two words. -/
def Entry.ofWords (comment : Option (List Char)) {n y : List Char} (hn : IsIdentifier n)
    (hy : IsIdentifier y) (hcomment : ∀ t ∈ comment, '\n' ∉ t ∧ ';' ∉ t) : Entry where
  before := []
  comment := comment
  definition := n ++ ' ' :: y
  columns := [.written n y []]
  spacing := by simp [Spacing]
  notMem_comment := hcomment
  isDefinition := .of_defines (defines_cons hn (by decide) hy) trivial

def Frame.bare (n : List Char) (hne : n ≠ []) (hn : n.all Ddl.isPlainNameChar = true) : Frame where
  name := n
  wrapped := n
  opening := openingText n
  gap := []
  name_ne_nil := hne
  isPlainNameChar := hn
  isWrapped := .bare
  isOpening := isOpening_openingText n
  blanks := by simp [Blanks]

theorem tables_comments_note :
    tables .parenDepth "CREATE TABLE t(a INT,-- note\nb TEXT,c DATE);".toList =
      [⟨"t", [⟨"a", "int", false, false, false⟩, ⟨"c", "date", false, false, false⟩]⟩] := by
  have h := (tables_comments (.bare ['t'] (by simp) (by decide))
    (e := .ofWords none (n := ['a']) (y := "INT".toList) (by decide) (by decide) (by simp)) rfl
    [.ofWords (some " note".toList) (n := ['b']) (y := "TEXT".toList) (by decide) (by decide)
        (by simp),
      .ofWords none (n := ['c']) (y := "DATE".toList) (by decide) (by decide) (by simp)]).1
  exact h.trans (by decide +kernel)

/-- A comment behind a comma hides the column behind it. -/
theorem not_forall_tables_comment_eq :
    ¬∀ (ds ds' : List (List Char × List Char)) (t : List Char), ds ≠ [] → ds' ≠ [] →
      (∀ d ∈ ds ++ ds', IsIdentifier d.1 ∧ IsIdentifier d.2) →
      (∀ c ∈ ['\n', '\r', '\'', '"', '\x60', '(', ')', ',', ';'], c ∉ t) →
      tables .parenDepth (openingText ['t'] ++
          (listing ds ++ ',' :: (commentText (some t) ++ (listing ds' ++ [')', ';'])))) =
        tables .parenDepth
          (openingText ['t'] ++ (listing ds ++ ',' :: (listing ds' ++ [')', ';']))) := by
  intro h
  have heq := h [(['a'], "INT".toList)] [(['b'], "TEXT".toList)] " note".toList (by simp)
    (by simp) (by decide) (by simp)
  exact absurd heq (by decide +kernel)

end Salvage.Ddl
