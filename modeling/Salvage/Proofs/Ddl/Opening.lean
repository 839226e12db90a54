import Salvage.Ddl.Table
import Salvage.Proofs.Text.Blank
import Salvage.Proofs.Text.Word

/-! # The opening of a statement

A statement opens with its keywords, the name of the table and a parenthesis. Its body is
the shortest text behind that which the end of a statement follows. What is read of the
opening ends with the parenthesis, so no text behind it has a part in the name.
-/

namespace Salvage.Ddl

open Text

variable {g h k n r s t u w x : List Char} {c : Char} {p : Char → Bool}

/-! ## Runs and blanks -/

theorem takeSome_eq_some_iff :
    takeSome p s = some (w, r) ↔
      s = w ++ r ∧ w ≠ [] ∧ (∀ c ∈ w, p c = true) ∧ ∀ c ∈ r.head?, p c = false := by
  simp only [takeSome]
  constructor
  · intro h
    split at h
    · simp at h
    · rename_i hne
      obtain ⟨rfl, rfl⟩ := Prod.mk.inj (Option.some.inj h)
      exact ⟨List.takeWhile_append_dropWhile.symm, hne, fun c => List.mem_takeWhile_imp,
        head?_dropWhile s⟩
  · rintro ⟨rfl, hne, hw, hr⟩
    rw [takeWhile_append_of_head? hw hr, dropWhile_append_of_head? hw hr, if_neg hne]

theorem skipSomeBlanks_eq_some_iff :
    skipSomeBlanks s = some r ↔
      ∃ g, s = g ++ r ∧ g ≠ [] ∧ Blanks g ∧ ∀ c ∈ r.head?, isBlank c = false := by
  simp only [skipSomeBlanks, Option.map_eq_some_iff, Prod.exists, takeSome_eq_some_iff]
  constructor
  · rintro ⟨g, _, h, rfl⟩
    exact ⟨g, h⟩
  · rintro ⟨g, h⟩
    exact ⟨g, r, h, rfl⟩

theorem keyword?_append {word : String} (hk : isWord k word.toList = true) (hg : Blanks g)
    (hne : g ≠ []) (hs : ∀ c ∈ s.head?, isBlank c = false) :
    keyword? word (k ++ (g ++ s)) = some s := by
  rw [keyword?, dropWord?_foldsTo_append hk, Option.bind_some]
  exact skipSomeBlanks_eq_some_iff.mpr ⟨g, rfl, hne, hg, hs⟩

/-! ## Where reading stops -/

/-- The character is never taken, and of a text that holds it nothing behind it is read. -/
structure StopsAt (c : Char) (f : List Char → Option (List Char)) : Prop where
  exists_append : ∀ {s r}, f s = some r → ∃ h, s = h ++ r ∧ c ∉ h
  append : ∀ {s}, c ∈ s → ∀ t, f (s ++ t) = (f s).map (· ++ t)

namespace StopsAt

variable {f f' : List Char → Option (List Char)}

theorem mem (hf : StopsAt c f) (h : f s = some r) (hs : c ∈ s) : c ∈ r := by
  obtain ⟨h, rfl, hc⟩ := hf.exists_append h
  exact (List.mem_append.mp hs).resolve_left hc

theorem bind (hf : StopsAt c f) (hf' : StopsAt c f') : StopsAt c fun s => (f s).bind f' where
  exists_append {s r} h := by
    obtain ⟨t, ht, hr⟩ := Option.bind_eq_some_iff.mp h
    obtain ⟨a, rfl, ha⟩ := hf.exists_append ht
    obtain ⟨b, rfl, hb⟩ := hf'.exists_append hr
    exact ⟨a ++ b, by simp, by simp [ha, hb]⟩
  append {s} hs t := by
    rw [hf.append hs]
    cases h : f s with
    | none => rfl
    | some r => exact hf'.append (hf.mem h hs) t

/-- A reader that may also take nothing. -/
theorem getD (hf : StopsAt c f) : StopsAt c fun s => some ((f s).getD s) where
  exists_append {s r} h := by
    obtain rfl := Option.some.inj h
    cases hs : f s with
    | none => exact ⟨[], rfl, List.not_mem_nil⟩
    | some r => exact hf.exists_append hs
  append {s} hs t := by
    rw [hf.append hs]
    cases f s <;> rfl

end StopsAt

theorem stopsAt_dropWord? {word : List Char} (hword : ∀ a ∈ word, foldsTo a c = false) :
    StopsAt c (dropWord? foldsTo word) where
  exists_append {s r} h := by
    obtain ⟨w, rfl, hw⟩ := exists_of_dropWord? h
    refine ⟨w, rfl, fun hc => ?_⟩
    obtain ⟨a, ha, hfolds⟩ := hw c hc
    simp [hword a ha] at hfolds
  append {s} hs t := by
    induction word generalizing s with
    | nil => rfl
    | cons a word ih =>
      obtain _ | ⟨d, s⟩ := s
      · exact absurd hs List.not_mem_nil
      rw [List.cons_append, dropWord?, dropWord?]
      split
      · rename_i hd
        have hne : c ≠ d := by
          rintro rfl
          simp [hword a List.mem_cons_self] at hd
        exact ih (fun b hb => hword b (List.mem_cons_of_mem a hb))
          ((List.mem_cons.mp hs).resolve_left hne)
      · rfl

theorem takeWhile_append_of_mem (hs : c ∈ s) (hc : p c = false) (t : List Char) :
    (s ++ t).takeWhile p = s.takeWhile p ∧ (s ++ t).dropWhile p = s.dropWhile p ++ t := by
  refine takeWhile_append_of_dropWhile (fun hnil => ?_) t
  simp [List.dropWhile_eq_nil_iff.mp hnil c hs] at hc

theorem takeSome_append (hs : c ∈ s) (hc : p c = false) (t : List Char) :
    takeSome p (s ++ t) = (takeSome p s).map fun (w, r) => (w, r ++ t) := by
  obtain ⟨htake, hdrop⟩ := takeWhile_append_of_mem hs hc t
  simp only [takeSome, htake, hdrop]
  split <;> rfl

theorem stopsAt_skipSomeBlanks (hc : isBlank c = false) : StopsAt c skipSomeBlanks where
  exists_append {s r} h := by
    obtain ⟨g, rfl, -, hg, -⟩ := skipSomeBlanks_eq_some_iff.mp h
    refine ⟨g, rfl, fun hmem => ?_⟩
    simp [hg c hmem] at hc
  append {s} hs t := by
    rw [skipSomeBlanks, takeSome_append hs hc, skipSomeBlanks]
    cases takeSome isBlank s <;> rfl

/-! ## Names and keywords -/

/-- The name of a table behind the keywords, and the text behind the parenthesis. -/
def namedOpening? (s : List Char) : Option (List Char × List Char) :=
  (takeSome isTableNameChar s).bind fun (name, t) =>
    match skipBlanks t with
    | '(' :: r => some (name, r)
    | _ => none

/-- The text behind the first keywords of a statement. -/
def keywords? (s : List Char) : Option (List Char) :=
  ((keyword? "CREATE" s).bind (keyword? "TABLE")).bind fun t => some ((condition? t).getD t)

/-- The name of the table in a statement, and the text behind the parenthesis that opens its
body. -/
def opening? (s : List Char) : Option (List Char × List Char) := (keywords? s).bind namedOpening?

theorem createTable_run (s : List Char) :
    createTable.run s = (opening? s).bind fun x =>
      (upTo statementEnd? x.2).map fun y => ((x.1, y.1), y.2) := by
  have hbody : ∀ t, nameAndBody? t = (namedOpening? t).bind fun x =>
      (upTo statementEnd? x.2).map fun y => ((x.1, y.1), y.2) := by
    intro t
    simp only [nameAndBody?, namedOpening?, Option.bind_eq_bind, Option.bind_assoc]
    congr 1
    funext x
    obtain ⟨name, u⟩ := x
    simp only
    split <;> simp_all
  rw [opening?, keywords?, Option.bind_assoc, Option.bind_assoc]
  simp only [createTable, Option.bind_eq_bind, hbody, Option.bind_some]

theorem isTableNameChar_of_isBlank (hc : isBlank c = true) : isTableNameChar c = false := by
  have hnone : blankChars.all (!isTableNameChar ·) = true := by decide
  simpa using of_isBlank hnone hc

theorem namedOpening?_eq_some_iff :
    namedOpening? s = some (n, r) ↔
      ∃ g, s = n ++ (g ++ '(' :: r) ∧ n ≠ [] ∧ (∀ c ∈ n, isTableNameChar c = true) ∧ Blanks g := by
  rw [namedOpening?, Option.bind_eq_some_iff]
  constructor
  · rintro ⟨⟨n', t⟩, ht, h⟩
    simp only at h
    split at h
    · rename_i r' hr
      obtain ⟨rfl, rfl⟩ := Prod.mk.inj (Option.some.inj h)
      obtain ⟨rfl, hne, hn, -⟩ := takeSome_eq_some_iff.mp ht
      refine ⟨t.takeWhile isBlank, ?_, hne, hn, fun c => List.mem_takeWhile_imp⟩
      rw [← hr, skipBlanks, List.takeWhile_append_dropWhile]
    · simp at h
  · rintro ⟨g, rfl, hne, hn, hg⟩
    refine ⟨(n, g ++ '(' :: r), takeSome_eq_some_iff.mpr ⟨rfl, hne, hn, ?_⟩, ?_⟩
    · cases g with
      | nil => simp [isTableNameChar, isNameChar, isIdentifierQuote, longS, kelvinSign]
      | cons c g => simpa using isTableNameChar_of_isBlank (hg c List.mem_cons_self)
    · have hskip : skipBlanks (g ++ '(' :: r) = '(' :: r :=
        dropWhile_append_of_head? hg (by simp [isBlank, inRanges, blankRanges])
      simp only [hskip]

/-- The keywords in the opening of a statement. -/
def openingWords : List String := ["CREATE", "TABLE", "IF", "NOT", "EXISTS"]

/-- The character is no blank, has no place in a name and stands for no letter of a
keyword. -/
structure IsDelimiter (c : Char) : Prop where
  isBlank_eq : isBlank c = false
  isTableNameChar_eq : isTableNameChar c = false
  openingWords_eq : openingWords.all (·.toList.all (!foldsTo · c)) = true

theorem isDelimiter_semicolon : IsDelimiter ';' := ⟨by decide, by decide, by decide⟩

theorem isDelimiter_opening : IsDelimiter '(' := ⟨by decide, by decide, by decide⟩

theorem isDelimiter_closing : IsDelimiter ')' := ⟨by decide, by decide, by decide⟩

namespace IsDelimiter

theorem foldsTo_eq (hc : IsDelimiter c) {word : String} (hword : word ∈ openingWords) :
    ∀ a ∈ word.toList, foldsTo a c = false := by
  intro a ha
  simpa using List.all_eq_true.mp (List.all_eq_true.mp hc.openingWords_eq word hword) a ha

theorem stopsAt_keyword? (hc : IsDelimiter c) {word : String} (hword : word ∈ openingWords) :
    StopsAt c (keyword? word) :=
  (stopsAt_dropWord? (hc.foldsTo_eq hword)).bind (stopsAt_skipSomeBlanks hc.isBlank_eq)

theorem stopsAt_condition? (hc : IsDelimiter c) : StopsAt c condition? :=
  ((hc.stopsAt_keyword? (by decide)).bind (hc.stopsAt_keyword? (by decide))).bind
    (hc.stopsAt_keyword? (by decide))

theorem stopsAt_keywords? (hc : IsDelimiter c) : StopsAt c keywords? :=
  ((hc.stopsAt_keyword? (by decide)).bind (hc.stopsAt_keyword? (by decide))).bind
    hc.stopsAt_condition?.getD

theorem namedOpening?_append (hc : IsDelimiter c) (hs : c ∈ s) (t : List Char) :
    namedOpening? (s ++ t) = (namedOpening? s).map fun (n, r) => (n, r ++ t) := by
  rw [namedOpening?, takeSome_append hs hc.isTableNameChar_eq, namedOpening?]
  cases h : takeSome isTableNameChar s with
  | none => rfl
  | some x =>
    obtain ⟨n, r⟩ := x
    have hr : c ∈ r := by
      obtain ⟨rfl, -, hn, -⟩ := takeSome_eq_some_iff.mp h
      refine (List.mem_append.mp hs).resolve_left fun hmem => ?_
      simpa [hn c hmem] using hc.isTableNameChar_eq
    have hskip := (takeWhile_append_of_mem hr hc.isBlank_eq t).2
    simp only [Option.map_some, Option.bind_some, skipBlanks, hskip]
    cases hu : r.dropWhile isBlank with
    | nil =>
      have hblank := List.dropWhile_eq_nil_iff.mp hu c hr
      simp [hc.isBlank_eq] at hblank
    | cons d u =>
      simp only [List.cons_append]
      split <;> simp_all

/-- No text behind a delimiter has a part in the opening. -/
theorem opening?_append (hc : IsDelimiter c) (hs : c ∈ s) (t : List Char) :
    opening? (s ++ t) = (opening? s).map fun (n, r) => (n, r ++ t) := by
  rw [opening?, hc.stopsAt_keywords?.append hs, opening?]
  cases h : keywords? s with
  | none => rfl
  | some r => exact hc.namedOpening?_append (hc.stopsAt_keywords?.mem h hs) t

theorem exists_of_opening? (hc : IsDelimiter c) (hne : c ≠ '(') (h : opening? s = some (n, r)) :
    ∃ h, s = h ++ r ∧ c ∉ h := by
  obtain ⟨t, ht, hr⟩ := Option.bind_eq_some_iff.mp h
  obtain ⟨a, rfl, ha⟩ := hc.stopsAt_keywords?.exists_append ht
  obtain ⟨g, rfl, -, hn, hg⟩ := namedOpening?_eq_some_iff.mp hr
  have hn' : c ∉ n := by
    intro hmem
    simpa [hn c hmem] using hc.isTableNameChar_eq
  exact ⟨a ++ (n ++ (g ++ ['('])), by simp, by simp [ha, hn', hg.notMem hc.isBlank_eq, hne]⟩

end IsDelimiter

/-! ## The opening that is written -/

/-- A keyword that is read of a name and a parenthesis is the name. -/
theorem rest_of_keyword? {word : String} (hword : word ∈ openingWords)
    (hn : ∀ c ∈ n, isTableNameChar c = true) (hg : Blanks g)
    (h : keyword? word (n ++ (g ++ '(' :: r)) = some t) : t = '(' :: r := by
  obtain ⟨u, hu, ht⟩ := Option.bind_eq_some_iff.mp h
  obtain ⟨a, hs, ha⟩ :=
    (stopsAt_dropWord? (isDelimiter_opening.foldsTo_eq hword)).exists_append hu
  obtain ⟨b, rfl, hb, hblanks, hhead⟩ := skipSomeBlanks_eq_some_iff.mp ht
  rw [← List.append_assoc a b t] at hs
  rcases List.append_eq_append_iff.mp hs with ⟨m, hm, hrest⟩ | ⟨m, hm, -⟩
  · -- The blanks behind the keyword are those behind the name.
    rcases List.append_eq_append_iff.mp hrest with ⟨v, hv, hopen⟩ | ⟨v, hv, htail⟩
    · have hmem : '(' ∉ m := by
        intro hmem
        have hparen : '(' ∈ a ++ b := hm ▸ List.mem_append_right n hmem
        rcases List.mem_append.mp hparen with h | h
        · exact ha h
        · exact hblanks.notMem (by decide) h
      obtain _ | ⟨d, v⟩ := v
      · exact hopen.symm
      · obtain ⟨rfl, -⟩ := List.cons.inj hopen
        simp [hv] at hmem
    · obtain _ | ⟨d, v⟩ := v
      · exact htail
      · have hd : isBlank d = true := hg d (by simp [hv])
        simp [hhead d (by simp [htail])] at hd
  · -- A name holds no blank.
    obtain ⟨d, hd⟩ := List.exists_mem_of_ne_nil b hb
    have hname := hn d (hm ▸ List.mem_append_left m (List.mem_append_right a hd))
    simp [isTableNameChar_of_isBlank (hblanks d hd)] at hname

/-- A name and a parenthesis are no condition. -/
theorem condition?_eq_none (hn : ∀ c ∈ n, isTableNameChar c = true) (hg : Blanks g)
    (r : List Char) : condition? (n ++ (g ++ '(' :: r)) = none := by
  cases h : keyword? "IF" (n ++ (g ++ '(' :: r)) with
  | none => simp [condition?, h]
  | some t =>
    obtain rfl := rest_of_keyword? (by decide) hn hg h
    rw [condition?, h]
    rfl

/-- What may stand between the keywords of a statement and the name. -/
inductive IsCondition : List Char → Prop where
  | none : IsCondition []
  | ifNotExists {a b c f g h : List Char} (ha : isWord a "IF".toList = true) (hf : Blanks f)
      (hf' : f ≠ []) (hb : isWord b "NOT".toList = true) (hg : Blanks g) (hg' : g ≠ [])
      (hc : isWord c "EXISTS".toList = true) (hh : Blanks h) (hh' : h ≠ []) :
      IsCondition (a ++ (f ++ (b ++ (g ++ (c ++ h)))))

/-- The text of the opening of a statement that creates a table with the name. -/
inductive IsOpening (n : List Char) : List Char → Prop where
  | mk {a b f g h x : List Char} (ha : isWord a "CREATE".toList = true) (hf : Blanks f)
      (hf' : f ≠ []) (hb : isWord b "TABLE".toList = true) (hg : Blanks g) (hg' : g ≠ [])
      (hx : IsCondition x) (hh : Blanks h) :
      IsOpening n (a ++ (f ++ (b ++ (g ++ (x ++ (n ++ (h ++ ['('])))))))

theorem isBlank_eq_of_isTableNameChar (hc : isTableNameChar c = true) : isBlank c = false := by
  cases h : isBlank c with
  | false => rfl
  | true => simp [isTableNameChar_of_isBlank h] at hc

theorem isBlank_head? (hne : n ≠ []) (hn : ∀ c ∈ n, isTableNameChar c = true) (t : List Char) :
    ∀ c ∈ (n ++ t).head?, isBlank c = false := by
  obtain ⟨d, n, rfl⟩ := List.exists_cons_of_ne_nil hne
  rintro c ⟨⟩
  exact isBlank_eq_of_isTableNameChar (hn d List.mem_cons_self)

theorem IsCondition.keyword?_table (hx : IsCondition x) {b : List Char}
    (hb : isWord b "TABLE".toList = true) (hg : Blanks g) (hg' : g ≠ [])
    (ht : ∀ c ∈ t.head?, isBlank c = false) :
    keyword? "TABLE" (b ++ (g ++ (x ++ t))) = some (x ++ t) := by
  refine keyword?_append hb hg hg' ?_
  cases hx with
  | none => exact ht
  | ifNotExists ha =>
    rw [List.append_assoc]
    exact isBlank_head?_of_isWord ha (by decide) _

/-- The condition is skipped, if there is one. -/
theorem IsCondition.condition?_getD (hx : IsCondition x) (hne : n ≠ [])
    (hn : ∀ c ∈ n, isTableNameChar c = true) (hg : Blanks g) (r : List Char) :
    (condition? (x ++ (n ++ (g ++ '(' :: r)))).getD (x ++ (n ++ (g ++ '(' :: r))) =
      n ++ (g ++ '(' :: r) := by
  cases hx with
  | none => rw [List.nil_append, condition?_eq_none hn hg, Option.getD_none]
  | ifNotExists ha hf hf' hb hg hg' hc hh hh' =>
    simp only [List.append_assoc, condition?, Option.bind_eq_bind]
    rw [keyword?_append ha hf hf' (isBlank_head?_of_isWord hb (by decide) _),
      Option.bind_some,
      keyword?_append hb hg hg' (isBlank_head?_of_isWord hc (by decide) _),
      Option.bind_some, keyword?_append hc hh hh' (isBlank_head? hne hn _), Option.getD_some]

theorem IsOpening.opening?_append (hs : IsOpening n s) (hne : n ≠ [])
    (hn : ∀ c ∈ n, isTableNameChar c = true) (r : List Char) :
    opening? (s ++ r) = some (n, r) := by
  cases hs with
  | @mk a b f g h x ha hf hf' hb hg hg' hx hh =>
    have hname : namedOpening? (n ++ (h ++ '(' :: r)) = some (n, r) :=
      namedOpening?_eq_some_iff.mpr ⟨h, rfl, hne, hn, hh⟩
    simp only [List.append_assoc, List.cons_append, List.nil_append]
    rw [opening?, keywords?,
      keyword?_append ha hf hf' (isBlank_head?_of_isWord hb (by decide) _),
      Option.bind_some, hx.keyword?_table hb hg hg' (isBlank_head? hne hn _), Option.bind_some,
      hx.condition?_getD hne hn hh, Option.bind_some, hname]

theorem blanks_space : Blanks [' '] := by simp [Blanks, isBlank, inRanges, blankRanges]

/-- The opening with one space between its parts. -/
def openingText (n : List Char) : List Char :=
  ['C', 'R', 'E', 'A', 'T', 'E', ' ', 'T', 'A', 'B', 'L', 'E', ' '] ++ (n ++ ['('])

theorem isOpening_openingText (n : List Char) : IsOpening n (openingText n) :=
  .mk (a := ['C', 'R', 'E', 'A', 'T', 'E']) (f := [' ']) (b := ['T', 'A', 'B', 'L', 'E'])
    (g := [' ']) (h := []) (by decide) blanks_space (by simp) (by decide) blanks_space (by simp)
    .none (by simp [Blanks])

/-- A statement begins with the first letter of its first keyword. -/
theorem opening?_cons (hc : foldsTo 'C' c = false) (t : List Char) : opening? (c :: t) = none := by
  have hword : "CREATE".toList = ['C', 'R', 'E', 'A', 'T', 'E'] := rfl
  simp [opening?, keywords?, keyword?, hword, dropWord?, hc]

theorem opening?_blank (hc : isBlank c = true) (t : List Char) : opening? (c :: t) = none := by
  have hfolds : blankChars.all (!foldsTo 'C' ·) = true := by decide
  exact opening?_cons (by simpa using of_isBlank hfolds hc) t

/-! ## The end of a statement -/

theorem statementEnd?_eq_some_iff :
    statementEnd? s = some r ↔ ∃ g, s = ')' :: (g ++ ';' :: r) ∧ Blanks g := by
  constructor
  · intro h
    unfold statementEnd? at h
    split at h
    · rename_i t
      split at h
      · rename_i r' hr
        obtain rfl := Option.some.inj h
        refine ⟨t.takeWhile isBlank, ?_, fun c => List.mem_takeWhile_imp⟩
        rw [← hr, skipBlanks, List.takeWhile_append_dropWhile]
      · simp at h
    · simp at h
  · rintro ⟨g, rfl, hg⟩
    have hskip : skipBlanks (g ++ ';' :: r) = ';' :: r :=
      dropWhile_append_of_head? hg (by simp [isBlank, inRanges, blankRanges])
    simp only [statementEnd?, hskip]

/-- Text behind a semicolon does not end the statement in front of it. -/
theorem statementEnd?_append_eq_none (hs : ';' ∈ s) (h : statementEnd? s = none) (t : List Char) :
    statementEnd? (s ++ t) = none := by
  cases hend : statementEnd? (s ++ t) with
  | none => rfl
  | some r =>
    obtain ⟨g, hst, hg⟩ := statementEnd?_eq_some_iff.mp hend
    have hfront : ';' ∉ ')' :: g := by simp [hg.notMem (c := ';') (by decide)]
    obtain ⟨m, rfl, hm, hmem⟩ := exists_of_append_eq_append (a := ')' :: g) hst hs hfront
    obtain _ | ⟨d, m⟩ := m
    · exact absurd hmem List.not_mem_nil
    · obtain ⟨rfl, -⟩ := List.cons.inj hm
      simp [statementEnd?_eq_some_iff.mpr ⟨g, rfl, hg⟩] at h

/-- A body that holds no semicolon goes up to the end of its statement. -/
theorem upTo_statementEnd? (hs : s ≠ []) (hsemi : ';' ∉ s) (hg : Blanks g) (r : List Char) :
    upTo statementEnd? (s ++ ')' :: (g ++ ';' :: r)) = some (s, r) := by
  obtain ⟨c, s, rfl⟩ := List.exists_cons_of_ne_nil hs
  refine upTo_append (statementEnd?_eq_some_iff.mpr ⟨g, rfl, hg⟩) fun u hu hsuffix => ?_
  have hu' : ';' ∉ u := fun h => hsemi (List.mem_cons_of_mem c (hsuffix.subset h))
  cases hend : statementEnd? (u ++ ')' :: (g ++ ';' :: r)) with
  | none => rfl
  | some v =>
    obtain ⟨f, heq, hf⟩ := statementEnd?_eq_some_iff.mp hend
    obtain ⟨d, u, rfl⟩ := List.exists_cons_of_ne_nil hu
    obtain ⟨rfl, hbehind⟩ := List.cons.inj heq
    obtain ⟨m, rfl, hrest⟩ := exists_of_append_cons_eq_append hbehind (hf.notMem (by decide))
    obtain _ | ⟨d, m⟩ := m
    · simp at hrest
    · obtain ⟨rfl, -⟩ := List.cons.inj hrest
      simp at hu'

/-- A written statement is matched from its first keyword to its semicolon. -/
theorem IsOpening.createTable_run_eq (hs : IsOpening n s) (hne : n ≠ [])
    (hn : ∀ c ∈ n, isTableNameChar c = true) {body : List Char} (hbody : body ≠ [])
    (hsemi : ';' ∉ body) (hg : Blanks g) (r : List Char) :
    createTable.run (s ++ (body ++ ')' :: (g ++ ';' :: r))) = some ((n, body), r) := by
  simp only [createTable_run, hs.opening?_append hne hn, Option.bind_some,
    upTo_statementEnd? hbody hsemi hg, Option.map_some]

theorem tables_eq (mode : SplitMode) (s : List Char) :
    tables mode s = (createTable.findAll s).filterMap fun x => Table.ofStatement? mode x.1 x.2 :=
  rfl

end Salvage.Ddl
