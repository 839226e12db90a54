import Salvage.Proofs.Json.MixedQuotes
import Salvage.Proofs.Json.Outcome

/-! # Objects in single quotes

In single quotes a double quote stands for itself and an apostrophe is escaped. The repair of
quotes makes the compact text of a value again. But it is given spans, and the search for
spans knows no single quotes: an object is recovered just when all of its text is one span.
-/

namespace Salvage.Json

/-- A character as it stands between single quotes. -/
def singleQuotedChar (c : Char) : List Char :=
  if c = '"' then ['"'] else if c = '\'' then ['\\', '\''] else writeChar c

def singleQuotedString (k : String) : List Char :=
  '\'' :: k.toList.flatMap singleQuotedChar ++ ['\'']

namespace Value

mutual

/-- The compact text of the value with its strings in single quotes. -/
def singleQuoted : Value → List Char
  | .null => write .null
  | .bool b => write (.bool b)
  | .number n => write (.number n)
  | .string s => singleQuotedString s
  | .array items => '[' :: [','].intercalate (singleQuotedItems items) ++ [']']
  | .object ms => '{' :: [','].intercalate (singleQuotedMembers ms) ++ ['}']

def singleQuotedItems : List Value → List (List Char)
  | [] => []
  | v :: vs => singleQuoted v :: singleQuotedItems vs

def singleQuotedMembers : List (String × Value) → List (List Char)
  | [] => []
  | (k, v) :: ms => (singleQuotedString k ++ ':' :: singleQuoted v) :: singleQuotedMembers ms

end

mutual

/-- The strings in the value, keys included. -/
def strings : Value → List String
  | .string s => [s]
  | .array items => stringsOfItems items
  | .object ms => stringsOfMembers ms
  | _ => []

def stringsOfItems : List Value → List String
  | [] => []
  | v :: vs => strings v ++ stringsOfItems vs

def stringsOfMembers : List (String × Value) → List String
  | [] => []
  | (k, v) :: ms => k :: strings v ++ stringsOfMembers ms

end

end Value

variable {s t w r : List Char} {v : Value}

/-! ## The repair of quotes -/

theorem charSpelling_singleQuotedChar (c : Char) :
    CharSpelling c (singleQuotedChar c) (writeChar c) := by
  by_cases hdouble : c = '"'
  · subst hdouble
    exact .quote
  by_cases hsingle : c = '\''
  · subst hsingle
    exact .apostrophe
  rw [singleQuotedChar, if_neg hdouble, if_neg hsingle]
  obtain ⟨hself, hc⟩ | ⟨w, hw, hescape⟩ := isVerbatim_or_escape c
  · rw [hself]
    exact .verbatim hc hsingle
  · rw [hw]
    exact .escape hescape

theorem contentSpelling_flatMap (k : List Char) :
    ContentSpelling k (k.flatMap singleQuotedChar) (k.flatMap writeChar) := by
  induction k with
  | nil => exact .nil
  | cons c k ih => exact .cons (charSpelling_singleQuotedChar c) ih

theorem spelling_singleQuotedString (k : String) :
    Spelling (.string k) (singleQuotedString k) (writeString k) := by
  simpa [singleQuotedString, writeString] using
    Spelling.string (contentSpelling_flatMap k.toList)

mutual

/-- Every value has a text in single quotes, which differs from its compact text in no more. -/
theorem spelling_singleQuoted : ∀ v : Value, Spelling v v.singleQuoted v.write
  | .null => .scalar (.null [])
  | .bool true => .scalar (.boolTrue [])
  | .bool false => .scalar (.boolFalse [])
  | .number n => .number n
  | .string k => spelling_singleQuotedString k
  | .array items => .array (itemsSpelling_singleQuoted items)
  | .object ms => .object (membersSpelling_singleQuoted ms)

theorem itemsSpelling_singleQuoted : ∀ vs : List Value,
    ItemsSpelling vs ([','].intercalate (Value.singleQuotedItems vs) ++ [']'])
      ([','].intercalate (Value.writeItems vs) ++ [']'])
  | [] => .nil (w := []) (by simp)
  | [v] => by
    simpa [Value.singleQuotedItems, Value.writeItems] using .last (spelling_singleQuoted v)
  | v :: w :: vs => by
    simpa [Value.singleQuotedItems, Value.writeItems, List.intercalate_cons_cons] using
      .more (spelling_singleQuoted v) (by simp) (itemsSpelling_singleQuoted (w :: vs))

theorem membersSpelling_singleQuoted : ∀ ms : List (String × Value),
    MembersSpelling ms ([','].intercalate (Value.singleQuotedMembers ms) ++ ['}'])
      ([','].intercalate (Value.writeMembers ms) ++ ['}'])
  | [] => .nil (w := []) (by simp)
  | [(k, v)] => by
    simpa [Value.singleQuotedMembers, Value.writeMembers] using
      .last (spelling_singleQuotedString k) (spelling_singleQuoted v)
  | (k, v) :: (k', w) :: ms => by
    simpa [Value.singleQuotedMembers, Value.writeMembers, List.intercalate_cons_cons] using
      .more (spelling_singleQuotedString k) (spelling_singleQuoted v) (by simp)
        (membersSpelling_singleQuoted ((k', w) :: ms))

end

theorem doubleQuotes_singleQuoted (v : Value) : doubleQuotes v.singleQuoted = v.write :=
  (spelling_singleQuoted v).requoted.doubleQuotes_eq

/-! ## The search for spans -/

/-- The string holds no double quote and no brace. -/
def IsPlain (k : String) : Prop := ∀ c ∈ k.toList, c ≠ '"' ∧ c ≠ '{' ∧ c ≠ '}'

theorem ne_of_isCode {c : Char} (hc : isCode c = true) : c ≠ '"' ∧ c ≠ '{' ∧ c ≠ '}' := by
  simp_all [isCode]

theorem IsItems.of_isCode (hw : ∀ c ∈ w, isCode c = true) : IsItems w :=
  .of_notMem fun c hc => ne_of_isCode (hw c hc)

theorem IsItems.intercalate {ss : List (List Char)} (h : ∀ s ∈ ss, IsItems s) :
    IsItems ([','].intercalate ss) := by
  induction ss with
  | nil => exact .nil
  | cons s ss ih =>
    obtain ⟨hs, hss⟩ := List.forall_mem_cons.mp h
    cases ss with
    | nil => simpa using hs
    | cons =>
      rw [List.intercalate_cons_cons]
      exact (hs.append (.of_isCode (by simp [isCode]))).append (ih hss)

theorem IsPlain.isItems {k : String} (hk : IsPlain k) : IsItems (singleQuotedString k) := by
  have hchar : ∀ d ∈ k.toList, ∀ c ∈ singleQuotedChar d, c ≠ '"' ∧ c ≠ '{' ∧ c ≠ '}' := by
    intro d hd c hc
    rw [singleQuotedChar, if_neg (hk d hd).1] at hc
    split at hc
    · simp only [List.mem_cons, List.not_mem_nil, or_false] at hc
      rcases hc with rfl | rfl
      · decide
      · decide
    obtain ⟨hself, -⟩ | ⟨letter, w, hescape, hletter, hw⟩ := exists_of_writeChar (hk d hd).1
    · obtain rfl : c = d := by simpa [hself] using hc
      exact hk c hd
    · rw [hescape, List.mem_cons, List.mem_cons] at hc
      rcases hc with rfl | rfl | hc
      · decide
      · exact ne_of_isCode hletter
      · exact ne_of_isCode (Bool.and_eq_true_iff.mp (hw c hc)).1
  refine .of_notMem fun c hc => ?_
  simp only [singleQuotedString, List.cons_append, List.mem_cons, List.mem_append,
    List.mem_flatMap, List.not_mem_nil, or_false] at hc
  rcases hc with rfl | ⟨d, hd, hc⟩ | rfl
  · decide
  · exact hchar d hd c hc
  · decide

mutual

theorem isItems_singleQuoted : ∀ v : Value, (∀ k ∈ v.strings, IsPlain k) → IsItems v.singleQuoted
  | .null, _ => .of_isCode (w := ['n', 'u', 'l', 'l']) (List.all_eq_true.mp rfl)
  | .bool true, _ => .of_isCode (w := ['t', 'r', 'u', 'e']) (List.all_eq_true.mp rfl)
  | .bool false, _ => .of_isCode (w := ['f', 'a', 'l', 's', 'e']) (List.all_eq_true.mp rfl)
  | .number _, _ => .of_isCode fun _ h => isCode_of_isNumeralChar (isNumeralChar_of_mem_write h)
  | .string k, hk => (hk k (by simp [Value.strings])).isItems
  | .array items, hk =>
    .char (by decide) (by decide) (by decide)
      ((IsItems.intercalate (isItems_items items hk)).append (.of_isCode (by simp [isCode])))
  | .object ms, hk => .span (.intercalate (isItems_members ms hk)) .nil

theorem isItems_items : ∀ vs : List Value, (∀ k ∈ Value.stringsOfItems vs, IsPlain k) →
    ∀ s ∈ Value.singleQuotedItems vs, IsItems s
  | [], _ => by simp [Value.singleQuotedItems]
  | v :: vs, hk => by
    simp only [Value.stringsOfItems, List.forall_mem_append] at hk
    exact List.forall_mem_cons.mpr ⟨isItems_singleQuoted v hk.1, isItems_items vs hk.2⟩

theorem isItems_members : ∀ ms : List (String × Value),
    (∀ k ∈ Value.stringsOfMembers ms, IsPlain k) → ∀ s ∈ Value.singleQuotedMembers ms, IsItems s
  | [], _ => by simp [Value.singleQuotedMembers]
  | (k, v) :: ms, hk => by
    simp only [Value.stringsOfMembers, List.cons_append, List.forall_mem_cons,
      List.forall_mem_append] at hk
    obtain ⟨hkey, hv, hms⟩ := hk
    refine List.forall_mem_cons.mpr ⟨hkey.isItems.append ?_, isItems_members ms hms⟩
    exact .char (by decide) (by decide) (by decide) (isItems_singleQuoted v hv)

end

/-! ## Spans that are cut short -/

/-- What the repair writes up to a brace does not depend on what follows, and ends with that
brace. -/
theorem exists_rewrite_brace (q : QuoteState) (u : List Char) :
    ∃ w q', QuoteState.flush q' = [] ∧
      ∀ r, q.rewrite (u ++ '}' :: r) = w ++ '}' :: QuoteState.rewrite q' r := by
  induction u generalizing q with
  | nil =>
    cases q with
    | outside => exact ⟨[], .outside, rfl, fun _ => rfl⟩
    | double => exact ⟨[], .double, rfl, fun _ => rfl⟩
    | doubleEscape => exact ⟨[], .double, rfl, fun _ => rfl⟩
    | single => exact ⟨[], .single, rfl, fun _ => rfl⟩
    | singleEscape => exact ⟨['\\'], .single, rfl, fun _ => rfl⟩
  | cons c u ih =>
    obtain ⟨w, q', hflush, h⟩ := ih (q.step c).1
    exact ⟨(q.step c).2 ++ w, q', hflush, fun r => by
      rw [List.cons_append, QuoteState.rewrite, h, List.append_assoc]⟩

/-- No object begins with another. -/
theorem IsObjectText.eq_nil_of_append {v' : Value} (h : IsObjectText s v)
    (h' : IsObjectText (s ++ r) v') : r = [] := by
  have hspans := h'.spans_append []
  rw [List.append_nil, h.spans_append r, spans_nil] at hspans
  simpa using (List.cons.inj hspans).1

theorem read_apostrophe_ne_ok (s : List Char) (v : Value) : read ('{' :: '\'' :: s) ≠ .ok v := by
  intro h
  obtain ⟨r, hr, -⟩ := read_eq_ok_iff.mp h
  obtain ⟨item?, hvalue, -⟩ := exists_valueWith nestingLimit
  have hread : ValueRead item? ('{' :: '\'' :: s) v r := valueWith_eq_ok_iff.mp (hvalue ▸ hr)
  cases hread with
  | number hc => simp at hc
  | object _ h =>
    have hskip : skipSpace ('\'' :: s) = '\'' :: s := rfl
    cases h with
    | nil hs => simp [hskip] at hs
    | members h =>
      have hhead := h.head?
      simp [hskip] at hhead

/-- An object begins in its single-quoted form as no JSON does, unless it is empty. -/
theorem singleQuoted_eq_or (hv : v.isObject = true) :
    v.singleQuoted = v.write ∨ ∃ s, v.singleQuoted = '{' :: '\'' :: s := by
  cases v with
  | object ms =>
    rcases ms with _ | ⟨⟨k, x⟩, ms⟩
    · exact .inl rfl
    · refine .inr ?_
      rw [Value.singleQuoted, Value.singleQuotedMembers]
      cases Value.singleQuotedMembers ms with
      | nil => exact ⟨_, by simp only [List.intercalate_singleton]; rfl⟩
      | cons => exact ⟨_, by rw [List.intercalate_cons_cons]; rfl⟩
  | _ => simp [Value.isObject] at hv

theorem isObjectText_write (hv : v.isObject = true) (h : read v.write = .ok v) :
    IsObjectText v.write v := by
  cases v with
  | object ms => exact ⟨rfl, by rw [Value.write, List.getLast?_concat], h⟩
  | _ => simp [Value.isObject] at hv

/-- As one span the object is recovered. -/
theorem value?_singleQuoted (hv : v.isObject = true) (h : read v.write = .ok v) :
    (Candidate.ofSpan v.singleQuoted).value? = some v := by
  obtain hsame | ⟨s, hs⟩ := singleQuoted_eq_or hv
  · rw [hsame, (isObjectText_write hv h).ofSpan]
    rfl
  · cases hread : read v.singleQuoted with
    | ok w => exact absurd (hs ▸ hread) (read_apostrophe_ne_ok s w)
    | error e => simp [Candidate.ofSpan, Candidate.value?, hread, doubleQuotes_singleQuoted, h]

/-- A span that ends within the object is no value as it stands. -/
theorem read_ne_ok_of_append {u : List Char} (hv : v.isObject = true) (h : read v.write = .ok v)
    (hsplit : v.singleQuoted = '{' :: u ++ '}' :: (r ++ ['}'])) (x : Value) :
    read ('{' :: u ++ ['}']) ≠ .ok x := by
  intro hx
  obtain hsame | ⟨s, hs⟩ := singleQuoted_eq_or hv
  · have hcut : IsObjectText ('{' :: u ++ ['}']) x := ⟨rfl, List.getLast?_concat, hx⟩
    have hnil := hcut.eq_nil_of_append (r := r ++ ['}'])
      (by simpa [← hsame, hsplit] using isObjectText_write hv h)
    simp at hnil
  · rw [hs] at hsplit
    cases u with
    | nil => simp at hsplit
    | cons c u =>
      obtain rfl : '\'' = c := by simpa using (List.cons.inj (List.cons.inj hsplit).2).1
      exact read_apostrophe_ne_ok _ x hx

/-- Nor is it a value with its quotes repaired. -/
theorem read_doubleQuotes_ne_ok_of_append {u : List Char} (hv : v.isObject = true)
    (h : read v.write = .ok v) (hsplit : v.singleQuoted = '{' :: u ++ '}' :: (r ++ ['}']))
    (x : Value) : read (doubleQuotes ('{' :: u ++ ['}'])) ≠ .ok x := by
  intro hx
  obtain ⟨w, q, hflush, hw⟩ := exists_rewrite_brace .outside ('{' :: u)
  have hcut : doubleQuotes ('{' :: u ++ ['}']) = w ++ ['}'] := by
    rw [doubleQuotes, hw [], QuoteState.rewrite, hflush]
  have hwhole : v.write = w ++ ['}'] ++ q.rewrite (r ++ ['}']) := by
    rw [← doubleQuotes_singleQuoted, hsplit, doubleQuotes, hw, List.append_assoc]
    rfl
  have hobject : IsObjectText (w ++ ['}']) x := by
    refine ⟨?_, List.getLast?_concat, hcut ▸ hx⟩
    rw [← hcut]
    rfl
  have hnil : q.rewrite (r ++ ['}']) = [] :=
    hobject.eq_nil_of_append (hwhole ▸ isObjectText_write hv h)
  obtain ⟨w', q', -, hw'⟩ := exists_rewrite_brace q r
  simp [hw'] at hnil

/-! ## What is extracted -/

/-- Without a fence the whole text yields what its candidates are. -/
theorem extract_eq_wholeText_iff {vs : List Value} {n : Nat} (hf : ¬fence <:+: s) :
    extract s = .ok ⟨vs, n, .wholeText⟩ ↔
      vs ≠ [] ∧ values (candidates s) = vs ∧ failures (candidates s) = n := by
  have hnone : values ([] : List Candidate) = [] := rfl
  rw [extract, fencedCandidates_eq_nil hf, candidates_unfence, eraseAll_fenceMarker hf]
  by_cases hvalues : values (candidates s) = []
  · simp only [hnone, hvalues, List.isEmpty_nil, Bool.not_true, Bool.false_eq_true, if_false]
    constructor
    · intro h
      split at h <;> simp at h
    · rintro ⟨hne, rfl, -⟩
      exact absurd rfl hne
  · simp only [hnone, List.isEmpty_nil, Bool.not_true, Bool.false_eq_true, if_false,
      List.nil_append]
    constructor
    · intro h
      rw [if_pos (by simpa using hvalues)] at h
      simp only [Except.ok.injEq, Extraction.mk.injEq] at h
      obtain ⟨rfl, rfl, -⟩ := h
      exact ⟨hvalues, rfl, rfl⟩
    · rintro ⟨-, rfl, rfl⟩
      rw [if_pos (by simpa using hvalues)]

theorem value?_eq_none (hraw : ∀ x, read s ≠ .ok x)
    (hrepaired : ∀ x, read (doubleQuotes s) ≠ .ok x) : (Candidate.ofSpan s).value? = none := by
  cases h : read s with
  | ok x => exact absurd h (hraw x)
  | error e =>
    cases h' : read (doubleQuotes s) with
    | ok x => exact absurd h' (hrepaired x)
    | error f => simp [Candidate.ofSpan, Candidate.value?, h, h']

/-- The first span is the whole object, or a candidate that fails. -/
theorem spans_singleQuoted (hv : v.isObject = true) (h : read v.write = .ok v) :
    spans v.singleQuoted = [] ∨ spans v.singleQuoted = [v.singleQuoted] ∨
      ∃ s ss, spans v.singleQuoted = s :: ss ∧ (Candidate.ofSpan s).value? = none := by
  obtain ⟨body, hbody⟩ : ∃ body, v.singleQuoted = '{' :: (body ++ ['}']) := by
    cases v with
    | object ms => exact ⟨_, rfl⟩
    | _ => simp [Value.isObject] at hv
  cases hclose : closeSpan 0 .code (body ++ ['}']) with
  | none => exact .inl (hbody ▸ spans_open_nil hclose)
  | some x =>
    obtain ⟨w, r⟩ := x
    have hspans := hbody ▸ spans_open hclose
    have happend := append_of_closeSpan hclose
    obtain ⟨u, rfl⟩ := (Ends.of_closeSpan hclose).exists_concat
    rcases List.eq_nil_or_concat r with rfl | ⟨r, c, rfl⟩
    · rw [List.append_nil] at happend
      exact .inr (.inl (by rw [hspans, hbody, happend, spans_nil]))
    · rw [List.concat_eq_append, ← List.append_assoc] at happend
      obtain ⟨rfl, hc⟩ := List.append_inj' happend rfl
      obtain rfl : c = '}' := by simpa using hc
      have hsplit : v.singleQuoted = '{' :: u ++ '}' :: (r ++ ['}']) := by simp [hbody]
      exact .inr (.inr ⟨_, _, hspans, value?_eq_none (read_ne_ok_of_append hv h hsplit)
        (read_doubleQuotes_ne_ok_of_append hv h hsplit)⟩)

theorem spans_singleQuoted_of_isPlain (hv : v.isObject = true) (hk : ∀ k ∈ v.strings, IsPlain k) :
    spans v.singleQuoted = [v.singleQuoted] := by
  cases v with
  | object ms =>
    have hmembers := IsItems.intercalate (isItems_members ms hk)
    have hclose := closeSpan_zero_eq_some_iff.mpr ⟨(List.append_nil _).symm, .mk hmembers⟩
    exact (spans_open hclose).trans (by rw [spans_nil]; rfl)
  | _ => simp [Value.isObject] at hv

/-- An object that can be read from its compact text is all that comes of its single-quoted
form just when that is one span. It is one where no string holds a double quote or a brace. -/
theorem extract_singleQuoted (hv : v.isObject = true) (h : read v.write = .ok v)
    (hf : ¬fence <:+: v.singleQuoted) :
    (extract v.singleQuoted = .ok ⟨[v], 0, .wholeText⟩ ↔
      spans v.singleQuoted = [v.singleQuoted]) ∧
    ((∀ k ∈ v.strings, IsPlain k) → spans v.singleQuoted = [v.singleQuoted]) := by
  refine ⟨?_, spans_singleQuoted_of_isPlain hv⟩
  rw [extract_eq_wholeText_iff hf]
  constructor
  · rintro ⟨-, hvalues, hfailures⟩
    obtain hnone | hone | ⟨s, ss, hspans, hs⟩ := spans_singleQuoted hv h
    · simp [candidates, hnone, values] at hvalues
    · exact hone
    · simp [candidates, hspans, failures, hs] at hfailures
  · intro hspans
    have hcandidate := value?_singleQuoted hv h
    simp [candidates, hspans, values, failures, hcandidate]

theorem extract_singleQuoted_balanced :
    extract ['{', '\'', 'i', 't', '\\', '\'', 's', '\'', ':', '\'', '{', '"', 'a', '"', '}', '\'',
      '}'] = .ok ⟨[.object [("it's", .string "\x7b\"a\"\x7d")]], 0, .wholeText⟩ :=
  (extract_singleQuoted (v := .object [("it's", .string "\x7b\"a\"\x7d")]) rfl (by decide +kernel)
    (by decide +kernel)).1.mpr (by decide +kernel)

/-- A double quote in a string hides the end of the object. -/
theorem not_forall_extract_singleQuoted :
    ¬∀ v : Value, v.isObject = true → read v.write = .ok v → ¬fence <:+: v.singleQuoted →
      ∃ e, extract v.singleQuoted = .ok e ∧ e.values = [v] := by
  intro h
  obtain ⟨e, he, -⟩ := h (.object [("note", .string "5\" disk")]) rfl (by decide +kernel)
    (by decide +kernel)
  have hlost : (extract (Value.object [("note", .string "5\" disk")]).singleQuoted).toOption.map
      Extraction.values = none := by decide +kernel
  simp [he, Except.toOption] at hlost

end Salvage.Json
