import Salvage.Proofs.Json.Braces
import Salvage.Proofs.Json.Numeral
import Salvage.Proofs.Json.Reading

/-! # Values between braces

What a value takes from a text has its strings closed and its braces matched. So a search
for the closing brace of a span steps over whole values, and an object is one span.
-/

namespace Salvage.Json

open Text

/-- The character is no quote and no brace. -/
def isCode (c : Char) : Bool := !(c == '"' || c == '\'' || c == '{' || c == '}')

/-- Between a text and its rest strings are closed and braces are matched. -/
inductive Passes : List Char → List Char → Prop where
  | refl (s : List Char) : Passes s s
  | code {c : Char} {s r : List Char} (hc : isCode c = true) (h : Passes s r) : Passes (c :: s) r
  | string {s t r : List Char} (hs : Closes s t) (h : Passes t r) : Passes ('"' :: s) r
  | braces {s t r : List Char} (hs : Passes s ('}' :: t)) (h : Passes t r) : Passes ('{' :: s) r

namespace Passes

variable {s t r : List Char}

theorem trans (h₁ : Passes s t) (h₂ : Passes t r) : Passes s r := by
  induction h₁ with
  | refl => exact h₂
  | code hc _ ih => exact .code hc (ih h₂)
  | string hs _ ih => exact .string hs (ih h₂)
  | braces hs _ _ ih => exact .braces hs (ih h₂)

theorem ofCode {w : List Char} (hw : ∀ c ∈ w, isCode c = true) (r : List Char) :
    Passes (w ++ r) r := by
  induction w with
  | nil => exact .refl r
  | cons c w ih =>
    exact .code (hw c List.mem_cons_self) (ih fun c' h => hw c' (List.mem_cons_of_mem c h))

end Passes

/-! ## Values pass -/

theorem isCode_of_isNumeralChar {c : Char} (h : isNumeralChar c = true) : isCode c = true := by
  have hne : ∀ d, isNumeralChar d = false → c ≠ d := by
    rintro d hd rfl
    simp [h] at hd
  simp [isCode, hne '"' rfl, hne '\'' rfl, hne '{' rfl, hne '}' rfl]

theorem Takes.passes {β : Type} {run next : List Char → β} {s r : List Char}
    (h : Takes run next s r) : Passes s r := by
  obtain ⟨w, rfl, hw, -⟩ := h
  exact .ofCode (fun c hc => isCode_of_isNumeralChar (hw c hc)) r

theorem eq_of_isSpace {c : Char} (h : isSpace c = true) :
    c = ' ' ∨ c = '\t' ∨ c = '\n' ∨ c = '\r' := by
  simpa only [isSpace, Bool.or_eq_true, beq_iff_eq, or_assoc] using h

theorem passes_skipSpace (s : List Char) : Passes s (skipSpace s) := by
  have hspace : ∀ c ∈ s.takeWhile isSpace, isCode c = true := by
    intro c hc
    rcases eq_of_isSpace (List.mem_takeWhile_imp hc) with rfl | rfl | rfl | rfl <;> rfl
  have h := Passes.ofCode hspace (skipSpace s)
  rwa [skipSpace, List.takeWhile_append_dropWhile] at h

/-- Spaces up to a character of code, and that character. -/
theorem passes_of_skipSpace {s r : List Char} {c : Char} (h : skipSpace s = c :: r)
    (hc : isCode c = true) : Passes s r :=
  (h ▸ passes_skipSpace s).trans (.code hc (.refl r))

section

variable {item : Reader Value} {item? : Option (Reader Value)} {s r : List Char}

/-- What the reader takes has closed strings and matched braces. -/
def Reader.Passes (item : Reader Value) : Prop :=
  ∀ ⦃s v r⦄, item.run s = .ok (v, r) → Json.Passes s r

theorem ItemsRead.passes (hitem : item.Passes) {vs : List Value} (h : ItemsRead item s vs r) :
    Passes s r := by
  induction h with
  | last hv ht => exact (hitem hv).trans (passes_of_skipSpace ht rfl)
  | more hv ht _ _ ih => exact (hitem hv).trans ((passes_of_skipSpace ht rfl).trans ih)

theorem ListRead.passes (hitem : item.Passes) {vs : List Value} (h : ListRead item s vs r) :
    Passes s r := by
  cases h with
  | nil hs => exact passes_of_skipSpace hs rfl
  | items _ h => exact (passes_skipSpace s).trans (h.passes hitem)

theorem MemberRead.passes (hitem : item.Passes) {m : String × Value}
    (h : MemberRead item s m r) : Passes s r := by
  obtain ⟨hk, ht, hv⟩ := h
  exact .string (quoted_eq_ok_iff.mp hk).closes ((passes_of_skipSpace ht rfl).trans (hitem hv))

theorem MembersRead.passes (hitem : item.Passes) {ms : Members} (h : MembersRead item s ms r) :
    Passes s ('}' :: r) := by
  induction h with
  | last hm ht => exact (hm.passes hitem).trans (ht ▸ passes_skipSpace _)
  | more hm ht _ ih =>
    exact (hm.passes hitem).trans ((passes_of_skipSpace ht rfl).trans
      ((passes_skipSpace _).trans ih))

theorem ObjectRead.passes (hitem : item.Passes) {ms : Members} (h : ObjectRead item s ms r) :
    Passes s ('}' :: r) := by
  cases h with
  | nil hs => exact hs ▸ passes_skipSpace s
  | members h => exact (passes_skipSpace s).trans (h.passes hitem)

theorem ValueRead.passes (hitem : ∀ item ∈ item?, item.Passes) {v : Value}
    (h : ValueRead item? s v r) : Passes s r := by
  cases h with
  | null => exact .ofCode (w := ['n', 'u', 'l', 'l']) (List.all_eq_true.mp rfl) r
  | boolTrue => exact .ofCode (w := ['t', 'r', 'u', 'e']) (List.all_eq_true.mp rfl) r
  | boolFalse => exact .ofCode (w := ['f', 'a', 'l', 's', 'e']) (List.all_eq_true.mp rfl) r
  | string h => exact .string (quoted_eq_ok_iff.mp h).closes (.refl r)
  | negative h => exact .code rfl (takes_numeral h).passes
  | number _ h => exact (takes_numeral h).passes
  | array hi h => exact .code rfl (h.passes (hitem _ hi))
  | object hi h => exact .braces (h.passes (hitem _ hi)) (.refl r)

theorem value_passes (n : Nat) : (value n).Passes := by
  refine value_induction (fun item? hitem s v r h => ?_) n
  exact (passes_skipSpace s).trans ((valueWith_eq_ok_iff.mp h).passes hitem)

end

/-- What passes is made of items. -/
theorem Passes.exists_items {s r : List Char} (h : Passes s r) : ∃ w, s = w ++ r ∧ IsItems w := by
  induction h with
  | refl s => exact ⟨[], rfl, .nil⟩
  | @code c s r hc _ ih =>
    obtain ⟨w, rfl, hw⟩ := ih
    have hne : c ≠ '"' ∧ c ≠ '{' ∧ c ≠ '}' := by
      simp_all [isCode]
    exact ⟨c :: w, rfl, .char hne.1 hne.2.1 hne.2.2 hw⟩
  | string hs _ ih =>
    obtain ⟨v, rfl, hv⟩ := hs.exists_append
    obtain ⟨w, rfl, hw⟩ := ih
    exact ⟨'"' :: (v ++ w), by simp, .string hv hw⟩
  | braces _ _ ih₁ ih₂ =>
    obtain ⟨v, rfl, hv⟩ := ih₁
    obtain ⟨w, rfl, hw⟩ := ih₂
    exact ⟨'{' :: (v ++ '}' :: w), by simp, .span hv hw⟩

section

variable {s t r : List Char}

/-! ## Objects are spans -/

/-- The text is an object from its first character to its last. -/
structure IsObjectText (s : List Char) (v : Value) : Prop where
  head : s.head? = some '{'
  last : s.getLast? = some '}'
  reads : read s = .ok v

theorem isSpace_of_skipSpace (h : skipSpace s = []) : ∀ c ∈ s, isSpace c = true := by
  simpa [skipSpace, List.dropWhile_eq_nil_iff] using h

theorem exists_valueWith (n : Nat) :
    ∃ item? : Option (Reader Value), value n = valueWith item? ∧ ∀ item ∈ item?, item.Passes := by
  cases n with
  | zero => exact ⟨none, rfl, by simp⟩
  | succ n => exact ⟨some (value n), rfl, by simpa using value_passes n⟩

theorem ValueRead.of_brace {item? : Option (Reader Value)} {v : Value}
    (h : ValueRead item? ('{' :: s) v r) (hitem : ∀ item ∈ item?, item.Passes) :
    Passes s ('}' :: r) ∧ v.isObject = true := by
  cases h with
  | number hc => simp at hc
  | object hi h => exact ⟨h.passes (hitem _ hi), rfl⟩

/-- Behind its opening brace an object passes to its closing brace. -/
theorem passes_of_value {n : Nat} {v : Value} (h : (value n).run ('{' :: s) = .ok (v, r)) :
    Passes s ('}' :: r) ∧ v.isObject = true := by
  obtain ⟨item?, hvalue, hitem⟩ := exists_valueWith n
  rw [hvalue] at h
  exact (valueWith_eq_ok_iff.mp h).of_brace hitem

theorem isObjectText_iff {v : Value} :
    IsObjectText s v ↔ s.head? = some '{' ∧ (value nestingLimit).run s = .ok (v, []) := by
  constructor
  · intro h
    refine ⟨h.head, ?_⟩
    obtain ⟨t, rfl⟩ := List.head?_eq_some_iff.mp h.head
    obtain ⟨r, hr, hspace⟩ := read_eq_ok_iff.mp h.reads
    obtain ⟨w, rfl, -⟩ := (passes_of_value hr).1.exists_items
    -- Spaces behind the closing brace would come last.
    rcases List.eq_nil_or_concat r with rfl | ⟨u, a, rfl⟩
    · exact hr
    · have hlast : ('{' :: w ++ '}' :: u ++ [a]).getLast? = some '}' := by simpa using h.last
      rw [List.getLast?_concat] at hlast
      obtain rfl := Option.some.inj hlast
      have hspace := isSpace_of_skipSpace hspace '}' (by simp)
      simp [isSpace] at hspace
  · rintro ⟨hhead, hr⟩
    refine ⟨hhead, ?_, read_eq_ok_iff.mpr ⟨[], hr, rfl⟩⟩
    obtain ⟨t, rfl⟩ := List.head?_eq_some_iff.mp hhead
    obtain ⟨w, rfl, -⟩ := (passes_of_value hr).1.exists_items
    rw [← List.cons_append, List.getLast?_concat]

/-- Behind its opening brace the text of an object passes to its last character. -/
theorem IsObjectText.passes {v : Value} (h : IsObjectText s v) :
    ∃ t, s = '{' :: t ∧ Passes t ['}'] ∧ v.isObject = true := by
  obtain ⟨hhead, hr⟩ := isObjectText_iff.mp h
  obtain ⟨t, rfl⟩ := List.head?_eq_some_iff.mp hhead
  exact ⟨t, rfl, passes_of_value hr⟩

/-- An object at the start of a text is the first of its spans. -/
theorem IsObjectText.spans_append {v : Value} (h : IsObjectText s v) (u : List Char) :
    spans (s ++ u) = s :: spans u := by
  obtain ⟨t, rfl, hpass, -⟩ := h.passes
  obtain ⟨w, rfl, hw⟩ := hpass.exists_items
  exact spans_open (closeSpan_zero_eq_some_iff.mpr ⟨rfl, .mk hw⟩)

end

end Salvage.Json
