import Salvage.Proofs.Json.Quotes
import Salvage.Proofs.Json.Writer

/-! # Values in mixed quotes

Each string of a value, keys included, may stand in double or in single quotes, with spaces
around the parts of the value. The repair puts double quotes around all of them, and what it
writes is a text of the same value.
-/

namespace Salvage.Json

variable {s t v w k r : List Char} {c : Char} {x : Value}

mutual

/-- A text of the value with each string in single or in double quotes, and the same text with
double quotes only. -/
inductive Spelling : Value → List Char → List Char → Prop where
  | number (n : Number) : Spelling (.number n) n.write n.write
  /-- A value without parts, strings in double quotes among them, as it may stand in JSON. -/
  | scalar {x : Value} {w : List Char} (h : ValueRead none w x []) : Spelling x w w
  | string {k v w : List Char} (h : ContentSpelling k v w) :
      Spelling (.string (String.ofList k)) ('\'' :: (v ++ ['\''])) ('"' :: (w ++ ['"']))
  | array {xs : List Value} {s t : List Char} (h : ItemsSpelling xs s t) :
      Spelling (.array xs) ('[' :: s) ('[' :: t)
  | object {ms : List (String × Value)} {s t : List Char} (h : MembersSpelling ms s t) :
      Spelling (.object ms) ('{' :: s) ('{' :: t)
  | before {x : Value} {s t : List Char} {c : Char} (hc : isSpace c = true)
      (h : Spelling x s t) : Spelling x (c :: s) (c :: t)
  | behind {x : Value} {s t : List Char} {c : Char} (hc : isSpace c = true)
      (h : Spelling x s t) : Spelling x (s ++ [c]) (t ++ [c])

/-- The items of a list, from behind its opening bracket. -/
inductive ItemsSpelling : List Value → List Char → List Char → Prop where
  | nil {w : List Char} (hw : ∀ c ∈ w, isSpace c = true) :
      ItemsSpelling [] (w ++ [']']) (w ++ [']'])
  | last {x : Value} {s t : List Char} (h : Spelling x s t) :
      ItemsSpelling [x] (s ++ [']']) (t ++ [']'])
  | more {x : Value} {xs : List Value} {s t s' t' : List Char} (h : Spelling x s t)
      (hne : xs ≠ []) (h' : ItemsSpelling xs s' t') :
      ItemsSpelling (x :: xs) (s ++ ',' :: s') (t ++ ',' :: t')

/-- The members of an object, from behind its opening brace. -/
inductive MembersSpelling : List (String × Value) → List Char → List Char → Prop where
  | nil {w : List Char} (hw : ∀ c ∈ w, isSpace c = true) :
      MembersSpelling [] (w ++ ['}']) (w ++ ['}'])
  | last {k : String} {x : Value} {s t s' t' : List Char} (hk : Spelling (.string k) s t)
      (h : Spelling x s' t') :
      MembersSpelling [(k, x)] (s ++ ':' :: (s' ++ ['}'])) (t ++ ':' :: (t' ++ ['}']))
  | more {k : String} {x : Value} {ms : List (String × Value)} {s t s' t' u v : List Char}
      (hk : Spelling (.string k) s t) (h : Spelling x s' t') (hne : ms ≠ [])
      (h' : MembersSpelling ms u v) :
      MembersSpelling ((k, x) :: ms) (s ++ ':' :: (s' ++ ',' :: u)) (t ++ ':' :: (t' ++ ',' :: v))

end

/-! ## The repair -/

theorem Requoted.of_forall (hw : ∀ c ∈ w, c ≠ '"' ∧ c ≠ '\'') : Requoted w w := by
  induction w with
  | nil => exact .nil
  | cons c w ih =>
    obtain ⟨hd, hs⟩ := hw c List.mem_cons_self
    exact .char hd hs (ih fun d h => hw d (List.mem_cons_of_mem c h))

theorem ne_quote_of_isSpace (hc : isSpace c = true) : c ≠ '"' ∧ c ≠ '\'' := by
  rcases eq_of_isSpace hc with rfl | rfl | rfl | rfl <;> decide

theorem ne_quote_of_isNumeralChar (hc : isNumeralChar c = true) : c ≠ '"' ∧ c ≠ '\'' := by
  have hcode := isCode_of_isNumeralChar hc
  simp_all [isCode]

theorem requoted_scalar (h : ValueRead none w x []) : Requoted w w := by
  obtain ⟨v, hw, hv⟩ := (h.passes (by simp)).exists_requoted
  rw [List.append_nil] at hw
  exact hw ▸ hv

/-- A comma, a colon or a bracket between two parts. -/
theorem Requoted.append_cons {s' t' : List Char} (h : Requoted s t) (hc : c ≠ '"' ∧ c ≠ '\'')
    (h' : Requoted s' t') : Requoted (s ++ c :: s') (t ++ c :: t') :=
  h.append (.char hc.1 hc.2 h')

mutual

theorem Spelling.requoted {x : Value} {s t : List Char} : Spelling x s t → Requoted s t
  | .number n => .of_forall fun _ hc => ne_quote_of_isNumeralChar (isNumeralChar_of_mem_write hc)
  | .scalar h => requoted_scalar h
  | .string h => by simpa using Requoted.single h .nil
  | .array h => .char (by decide) (by decide) h.requoted
  | .object h => .char (by decide) (by decide) h.requoted
  | .before hc h => .char (ne_quote_of_isSpace hc).1 (ne_quote_of_isSpace hc).2 h.requoted
  | .behind hc h => h.requoted.append_cons (ne_quote_of_isSpace hc) .nil

theorem ItemsSpelling.requoted {xs : List Value} {s t : List Char} :
    ItemsSpelling xs s t → Requoted s t
  | .nil hw => (Requoted.of_forall fun c hc => ne_quote_of_isSpace (hw c hc)).append_cons
      (by decide) .nil
  | .last h => h.requoted.append_cons (by decide) .nil
  | .more h _ h' => h.requoted.append_cons (by decide) h'.requoted

theorem MembersSpelling.requoted {ms : List (String × Value)} {s t : List Char} :
    MembersSpelling ms s t → Requoted s t
  | .nil hw => (Requoted.of_forall fun c hc => ne_quote_of_isSpace (hw c hc)).append_cons
      (by decide) .nil
  | .last hk h => hk.requoted.append_cons (by decide) (h.requoted.append_cons (by decide) .nil)
  | .more hk h _ h' =>
    hk.requoted.append_cons (by decide) (h.requoted.append_cons (by decide) h'.requoted)

end

/-! ## What is written -/

theorem CharSpelling.quotedRead (h : CharSpelling c v w) (hr : QuotedRead s k r) :
    QuotedRead (w ++ s) (c :: k) r := by
  cases h with
  | verbatim hc _ => exact .verbatim hc hr
  | @escape _ w h =>
    obtain ⟨a, u, rfl, -, -, hread⟩ := exists_of_escape h
    rw [List.append_nil]
    exact .escape (hread s) hr
  | apostrophe => exact .verbatim ⟨by decide, by decide, by decide⟩ hr
  | quote => exact .escape rfl hr

theorem ContentSpelling.quotedRead (h : ContentSpelling k v w) :
    QuotedRead (w ++ '"' :: r) k r := by
  induction h with
  | nil => exact .close r
  | cons hc _ ih =>
    rw [List.append_assoc]
    exact hc.quotedRead ih

mutual

/-- In double quotes the text is one of the same value. -/
theorem Spelling.repaired {x : Value} {s t : List Char} : Spelling x s t → Spelling x t t
  | .number n => .number n
  | .scalar h => .scalar h
  | .string h => .scalar (.string (quoted_eq_ok_iff.mpr h.quotedRead))
  | .array h => .array h.repaired
  | .object h => .object h.repaired
  | .before hc h => .before hc h.repaired
  | .behind hc h => .behind hc h.repaired

theorem ItemsSpelling.repaired {xs : List Value} {s t : List Char} :
    ItemsSpelling xs s t → ItemsSpelling xs t t
  | .nil hw => .nil hw
  | .last h => .last h.repaired
  | .more h hne h' => .more h.repaired hne h'.repaired

theorem MembersSpelling.repaired {ms : List (String × Value)} {s t : List Char} :
    MembersSpelling ms s t → MembersSpelling ms t t
  | .nil hw => .nil hw
  | .last hk h => .last hk.repaired h.repaired
  | .more hk h hne h' => .more hk.repaired h.repaired hne h'.repaired

end

/-- The repair of a value in mixed quotes gives the same text with all strings in double
quotes, which is again a text of the value. -/
theorem doubleQuotes_of_spelling (h : Spelling x s t) : doubleQuotes s = t ∧ Spelling x t t :=
  ⟨h.requoted.doubleQuotes_eq, h.repaired⟩

theorem doubleQuotes_of_spelling_both :
    doubleQuotes ['{', '\'', '\\', '\'', '\'', ':', '[', '"', '\'', '"', ',', ' ', '\'', '"', '\'',
        ']', '}'] =
      ['{', '"', '\'', '"', ':', '[', '"', '\'', '"', ',', ' ', '"', '\\', '"', '"', ']', '}'] := by
  have hkey : Spelling (.string "'") ['\'', '\\', '\'', '\''] ['"', '\'', '"'] :=
    .string (.cons .apostrophe .nil)
  have hfirst : Spelling (.string "'") ['"', '\'', '"'] ['"', '\'', '"'] :=
    .scalar (.string (by decide +kernel))
  have hlast : Spelling (.string "\"") ['\'', '"', '\''] ['"', '\\', '"', '"'] :=
    .string (.cons .quote .nil)
  have hitems := ItemsSpelling.more hfirst (by simp) (.last (.before (c := ' ') rfl hlast))
  exact (doubleQuotes_of_spelling (.object (.last hkey (.array hitems)))).1

end Salvage.Json
