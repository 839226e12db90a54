import Salvage.Json.Quotes
import Salvage.Proofs.Json.Span

/-! # What the repair of quotes keeps

All strings of a repaired text are in double quotes, so a second repair changes nothing. A text
is kept as it is just when each of its apostrophes lies inside a double-quoted string, whatever
else is wrong with it. JSON is such a text. Where strings stand in single quotes the repair
writes them in double quotes, with the escapes that these need, and keeps all around them.
-/

namespace Salvage.Json

open Text

variable {s t u v w r k : List Char} {q : SpanState} {c : Char}

/-! ## Repairing twice -/

namespace QuoteState

/-- The state in which the repair is on the text that it has written. There a string is in
double quotes, and the backslash of an escape in single quotes is not yet written. -/
def written : QuoteState → QuoteState
  | .outside => .outside
  | .double => .double
  | .doubleEscape => .doubleEscape
  | .single => .double
  | .singleEscape => .double

/-- What is written for a character is kept. -/
theorem rewrite_written_step (q : QuoteState) (c : Char) (u : List Char) :
    q.written.rewrite ((q.step c).2 ++ u) = (q.step c).2 ++ (q.step c).1.written.rewrite u := by
  cases q with
  | outside =>
    by_cases hd : c = '"'
    · simp [step, written, rewrite, hd]
    by_cases hs : c = '\''
    · simp [step, written, rewrite, hs]
    · simp [step, written, rewrite, hd, hs]
  | double =>
    by_cases hb : c = '\\'
    · simp [step, written, rewrite, hb]
    by_cases hd : c = '"'
    · simp [step, written, rewrite, hd]
    · simp [step, written, rewrite, hb, hd]
  | doubleEscape => simp [step, written, rewrite]
  | single =>
    by_cases hb : c = '\\'
    · simp [step, written, hb]
    by_cases hd : c = '"'
    · simp [step, written, rewrite, hd]
    by_cases hs : c = '\''
    · simp [step, written, rewrite, hs]
    · simp [step, written, rewrite, hb, hd, hs]
  | singleEscape =>
    by_cases hs : c = '\''
    · simp [step, written, rewrite, hs]
    · simp [step, written, rewrite, hs]

theorem rewrite_written_flush (q : QuoteState) : q.written.rewrite q.flush = q.flush := by
  cases q <;> rfl

theorem rewrite_written (q : QuoteState) (s : List Char) :
    q.written.rewrite (q.rewrite s) = q.rewrite s := by
  induction s generalizing q with
  | nil => exact q.rewrite_written_flush
  | cons c s ih => rw [rewrite, rewrite_written_step, ih]

end QuoteState

/-! ## Text that is kept -/

/-- The place behind the text is inside a string, if strings are in double quotes only. -/
def InLiteral (s : List Char) : Prop := s.foldl SpanState.step .code ≠ .code

/-- The state of the repair where it has met no string in single quotes. -/
def QuoteState.ofSpan : SpanState → QuoteState
  | .code => .outside
  | .string => .double
  | .escape => .doubleEscape

/-- Any character is kept but an apostrophe outside strings. -/
theorem QuoteState.step_ofSpan (h : q = .code → c ≠ '\'') :
    (ofSpan q).step c = (ofSpan (q.step c), [c]) := by
  cases q with
  | code =>
    by_cases hd : c = '"'
    · simp [ofSpan, step, SpanState.step, hd]
    · simp [ofSpan, step, SpanState.step, hd, h rfl]
  | string =>
    by_cases hb : c = '\\'
    · simp [ofSpan, step, SpanState.step, hb]
    by_cases hd : c = '"'
    · simp [ofSpan, step, SpanState.step, hd]
    · simp [ofSpan, step, SpanState.step, hb, hd]
  | escape => rfl

theorem QuoteState.rewrite_ofSpan_eq_self_iff (q : SpanState) (s : List Char) :
    (ofSpan q).rewrite s = s ↔ ∀ a b, s = a ++ '\'' :: b → a.foldl SpanState.step q ≠ .code := by
  induction s generalizing q with
  | nil => cases q <;> simp [rewrite, ofSpan, flush]
  | cons c s ih =>
    rw [forall_append_cons_iff, rewrite]
    by_cases hc : q = .code ∧ c = '\''
    · obtain ⟨rfl, rfl⟩ := hc
      simp [ofSpan, step]
    · have hkeep : q = .code → c ≠ '\'' := fun hq h => hc ⟨hq, h⟩
      have hfirst : c = '\'' → q ≠ .code := fun h hq => hc ⟨hq, h⟩
      rw [step_ofSpan hkeep, List.singleton_append, List.cons.injEq, ih]
      simp only [true_and, List.foldl_cons, List.foldl_nil, and_iff_right hfirst]

theorem doubleQuotes_eq_self_iff :
    doubleQuotes s = s ↔ ∀ a b, s = a ++ '\'' :: b → InLiteral a :=
  QuoteState.rewrite_ofSpan_eq_self_iff .code s

/-! ## Strings in single quotes -/

/-- How a character may be written in single quotes, and how it then is in double quotes. -/
inductive CharSpelling : Char → List Char → List Char → Prop where
  | verbatim {c : Char} (hc : IsVerbatim c) (hs : c ≠ '\'') : CharSpelling c [c] [c]
  | escape {c : Char} {w : List Char} (h : escape w = .ok (c, [])) :
      CharSpelling c ('\\' :: w) ('\\' :: w)
  | apostrophe : CharSpelling '\'' ['\\', '\''] ['\'']
  | quote : CharSpelling '"' ['"'] ['\\', '"']

/-- The same content in single and in double quotes. -/
inductive ContentSpelling : List Char → List Char → List Char → Prop where
  | nil : ContentSpelling [] [] []
  | cons {c : Char} {k v w v' w' : List Char} (hc : CharSpelling c v w)
      (h : ContentSpelling k v' w') : ContentSpelling (c :: k) (v ++ v') (w ++ w')

/-- The same text with some strings in single quotes, and with all strings in double quotes. -/
inductive Requoted : List Char → List Char → Prop where
  | nil : Requoted [] []
  | char {c : Char} {s t : List Char} (hd : c ≠ '"') (hs : c ≠ '\'') (h : Requoted s t) :
      Requoted (c :: s) (c :: t)
  | double {w s t : List Char} (hw : Closes w []) (h : Requoted s t) :
      Requoted ('"' :: (w ++ s)) ('"' :: (w ++ t))
  | single {k v w s t : List Char} (hk : ContentSpelling k v w) (h : Requoted s t) :
      Requoted ('\'' :: (v ++ '\'' :: s)) ('"' :: (w ++ '"' :: t))

theorem IsHexDigit.rewrite_append (hw : ∀ c ∈ w, IsHexDigit c) (s : List Char) :
    QuoteState.single.rewrite (w ++ s) = w ++ QuoteState.single.rewrite s := by
  induction w with
  | nil => rfl
  | cons c w ih =>
    have hc := hw c List.mem_cons_self
    have hb : c ≠ '\\' := hc.ne rfl
    have hd : c ≠ '"' := hc.ne rfl
    have hs : c ≠ '\'' := hc.ne rfl
    simp [QuoteState.rewrite, QuoteState.step, hb, hd, hs,
      ih fun c' h => hw c' (List.mem_cons_of_mem c h)]

theorem rewrite_backslash (hc : c ≠ '\'') (s : List Char) :
    QuoteState.single.rewrite ('\\' :: c :: s) = '\\' :: c :: QuoteState.single.rewrite s := by
  simp [QuoteState.rewrite, QuoteState.step, hc]

theorem IsEscapeTail.rewrite_append (hw : IsEscapeTail w) (s : List Char) :
    QuoteState.single.rewrite (w ++ s) = w ++ QuoteState.single.rewrite s := by
  rcases hw with hw | ⟨ds, es, rfl, hds, hes⟩
  · exact IsHexDigit.rewrite_append hw s
  · rw [List.append_assoc, IsHexDigit.rewrite_append hds, List.cons_append, List.cons_append,
      rewrite_backslash (by decide), IsHexDigit.rewrite_append hes, List.append_assoc]
    rfl

/-- In single quotes an escape is kept. -/
theorem rewrite_escape_append (h : escape w = .ok (c, [])) (s : List Char) :
    QuoteState.single.rewrite ('\\' :: w ++ s) = '\\' :: w ++ QuoteState.single.rewrite s := by
  obtain ⟨a, v, rfl, ha, hv, -⟩ := exists_of_escape h
  have hne : a ≠ '\'' := by
    rintro rfl
    revert ha
    decide
  simp only [List.append_nil, List.cons_append]
  rw [rewrite_backslash hne, hv.rewrite_append]

theorem CharSpelling.rewrite_append (h : CharSpelling c v w) (s : List Char) :
    QuoteState.single.rewrite (v ++ s) = w ++ QuoteState.single.rewrite s := by
  cases h with
  | verbatim hc hs => simp [QuoteState.rewrite, QuoteState.step, hc.1, hc.2.1, hs]
  | escape h => exact rewrite_escape_append h s
  | apostrophe => rfl
  | quote => rfl

theorem ContentSpelling.rewrite_append (h : ContentSpelling k v w) (s : List Char) :
    QuoteState.single.rewrite (v ++ s) = w ++ QuoteState.single.rewrite s := by
  induction h with
  | nil => rfl
  | cons hc _ ih => rw [List.append_assoc, hc.rewrite_append, ih, List.append_assoc]

theorem Closes.rewrite_append (h : Closes w []) (s : List Char) :
    QuoteState.double.rewrite (w ++ s) = w ++ QuoteState.outside.rewrite s := by
  generalize ht : ([] : List Char) = t at h
  induction h with
  | quote t =>
    subst ht
    rfl
  | plain hq hb _ ih => simp [QuoteState.rewrite, QuoteState.step, hq, hb, ih ht]
  | escape c _ ih => simp [QuoteState.rewrite, QuoteState.step, ih ht]

namespace Requoted

theorem append (h : Requoted s t) (h' : Requoted u v) : Requoted (s ++ u) (t ++ v) := by
  induction h with
  | nil => exact h'
  | char hd hs _ ih => exact .char hd hs ih
  | double hw _ ih => simpa using double hw ih
  | single hk _ ih => simpa using single hk ih

theorem rewrite_append (h : Requoted s t) (r : List Char) :
    QuoteState.outside.rewrite (s ++ r) = t ++ QuoteState.outside.rewrite r := by
  induction h with
  | nil => rfl
  | char hd hs _ ih => simp [QuoteState.rewrite, QuoteState.step, hd, hs, ih]
  | double hw _ ih =>
    simp [QuoteState.rewrite, QuoteState.step, hw.rewrite_append, ih]
  | single hk _ ih =>
    simp [QuoteState.rewrite, QuoteState.step, hk.rewrite_append, ih]

theorem doubleQuotes_eq (h : Requoted s t) : doubleQuotes s = t := by
  have hrun := h.rewrite_append []
  simpa [doubleQuotes, QuoteState.rewrite, QuoteState.flush] using hrun

end Requoted

/-! ## JSON -/

theorem Passes.exists_requoted (h : Passes s r) : ∃ w, s = w ++ r ∧ Requoted w w := by
  induction h with
  | refl s => exact ⟨[], rfl, .nil⟩
  | @code c s r hc _ ih =>
    obtain ⟨w, rfl, hw⟩ := ih
    have hne : c ≠ '"' ∧ c ≠ '\'' := by simp_all [isCode]
    exact ⟨c :: w, rfl, .char hne.1 hne.2 hw⟩
  | string hs _ ih =>
    obtain ⟨v, rfl, hv⟩ := hs.exists_append
    obtain ⟨w, rfl, hw⟩ := ih
    exact ⟨'"' :: (v ++ w), by simp, .double hv hw⟩
  | braces _ _ ih₁ ih₂ =>
    obtain ⟨v, rfl, hv⟩ := ih₁
    obtain ⟨w, rfl, hw⟩ := ih₂
    refine ⟨'{' :: (v ++ '}' :: w), by simp, .char (by decide) (by decide) ?_⟩
    exact hv.append (.char (by decide) (by decide) hw)

theorem requoted_of_read {x : Value} (h : read s = .ok x) : Requoted s s := by
  obtain ⟨r, hr, hspace⟩ := read_eq_ok_iff.mp h
  have hpass : Passes s [] := (value_passes _ hr).trans (hspace ▸ passes_skipSpace r)
  obtain ⟨w, hs, hw⟩ := hpass.exists_requoted
  rw [List.append_nil] at hs
  exact hs ▸ hw

/-- The repair changes nothing that it has written, and nothing in a text just when each
apostrophe of the text lies inside a double-quoted string. This is so in JSON. -/
theorem isStable_doubleQuotes (s : List Char) :
    doubleQuotes (doubleQuotes s) = doubleQuotes s ∧
      (doubleQuotes s = s ↔ ∀ a b, s = a ++ '\'' :: b → InLiteral a) ∧
      ∀ x, read s = .ok x → doubleQuotes s = s :=
  ⟨QuoteState.outside.rewrite_written s, doubleQuotes_eq_self_iff,
    fun _ h => (requoted_of_read h).doubleQuotes_eq⟩

theorem isStable_doubleQuotes_malformed :
    doubleQuotes (doubleQuotes ['\'', '"', '\'', '"', '\'', '\\']) =
        doubleQuotes ['\'', '"', '\'', '"', '\'', '\\'] ∧
      read ['[', '"', '\'', '\\', '"', '"', ']'] = .ok (.array [.string "'\""]) ∧
      doubleQuotes ['[', '"', '\'', '\\', '"', '"', ']'] =
        ['[', '"', '\'', '\\', '"', '"', ']'] := by
  have hread : read ['[', '"', '\'', '\\', '"', '"', ']'] = .ok (.array [.string "'\""]) := by
    decide +kernel
  exact ⟨(isStable_doubleQuotes _).1, hread, (isStable_doubleQuotes _).2.2 _ hread⟩

end Salvage.Json
