import Salvage.Json.Span
import Salvage.Proofs.Json.StringLiteral

/-! # The grammar of spans

A span holds items between its braces: spans, string literals, and characters that are no
brace and no double quote. The search for the closing brace finds just the spans of this
grammar. So the spans of a text are known from the grammar alone: in front of each one no
brace opens, and behind the last one none does that a span begins with. A scan that counts
the open braces finds the same spans, and its count never falls below zero.
-/

namespace Salvage.Json

open Text

/-- What may stand between two braces that belong together. -/
inductive IsItems : List Char → Prop where
  | nil : IsItems []
  | char {c : Char} {w : List Char} (hq : c ≠ '"') (ho : c ≠ '{') (hc : c ≠ '}')
      (h : IsItems w) : IsItems (c :: w)
  | string {s w : List Char} (hs : Closes s []) (h : IsItems w) : IsItems ('"' :: (s ++ w))
  | span {v w : List Char} (hv : IsItems v) (h : IsItems w) : IsItems ('{' :: (v ++ '}' :: w))

inductive IsSpan : List Char → Prop where
  | mk {w : List Char} (h : IsItems w) : IsSpan ('{' :: (w ++ ['}']))

variable {p r s t u v w : List Char} {ss : List (List Char)} {c : Char} {depth : Nat}
  {q : SpanState}

theorem IsItems.append (hv : IsItems v) (hw : IsItems w) : IsItems (v ++ w) := by
  induction hv with
  | nil => exact hw
  | char hq ho hc _ ih => exact .char hq ho hc ih
  | string hs _ ih =>
    rw [List.cons_append, List.append_assoc]
    exact .string hs ih
  | span hv _ _ ih =>
    rw [List.cons_append, List.append_assoc, List.cons_append]
    exact .span hv ih

theorem IsItems.of_notMem (hw : ∀ c ∈ w, c ≠ '"' ∧ c ≠ '{' ∧ c ≠ '}') : IsItems w := by
  induction w with
  | nil => exact .nil
  | cons c w ih =>
    obtain ⟨hq, ho, hc⟩ := hw c List.mem_cons_self
    exact .char hq ho hc (ih fun d hd => hw d (List.mem_cons_of_mem c hd))

/-- A literal is closed by its own characters. -/
theorem Closes.exists_append (h : Closes s t) : ∃ w, s = w ++ t ∧ Closes w [] := by
  induction h with
  | quote t => exact ⟨['"'], rfl, .quote []⟩
  | @plain c _ _ hq hb _ ih =>
    obtain ⟨w, rfl, hw⟩ := ih
    exact ⟨c :: w, rfl, .plain hq hb hw⟩
  | escape c _ ih =>
    obtain ⟨w, rfl, hw⟩ := ih
    exact ⟨'\\' :: c :: w, rfl, .escape c hw⟩

/-! ## Closing a span -/

/-- Puts a stretch of text in front of a stretch that was read. -/
def prepend (w : List Char) (x : Option (List Char × List Char)) :
    Option (List Char × List Char) :=
  x.map fun (stretch, rest) => (w ++ stretch, rest)

theorem prepend_nil (x : Option (List Char × List Char)) : prepend [] x = x := by
  cases x <;> rfl

theorem extend_prepend (c : Char) (w : List Char) (x : Option (List Char × List Char)) :
    extend c (prepend w x) = prepend (c :: w) x := by
  cases x <;> rfl

theorem prepend_prepend (v w : List Char) (x : Option (List Char × List Char)) :
    prepend v (prepend w x) = prepend (v ++ w) x := by
  cases x <;> simp [prepend]

theorem closeSpan_quote (depth : Nat) (s : List Char) :
    closeSpan depth .code ('"' :: s) = extend '"' (closeSpan depth .string s) := by
  simp [closeSpan, SpanState.step]

theorem closeSpan_open (depth : Nat) (s : List Char) :
    closeSpan depth .code ('{' :: s) = extend '{' (closeSpan (depth + 1) .code s) := by
  simp [closeSpan]

theorem closeSpan_close (depth : Nat) (s : List Char) :
    closeSpan (depth + 1) .code ('}' :: s) = extend '}' (closeSpan depth .code s) := by
  simp [closeSpan]

theorem closeSpan_end (s : List Char) : closeSpan 0 .code ('}' :: s) = some (['}'], s) := by
  simp [closeSpan]

theorem Closes.closeSpan_append (h : Closes s []) (depth : Nat) (r : List Char) :
    closeSpan depth .string (s ++ r) = prepend s (closeSpan depth .code r) := by
  generalize ht : ([] : List Char) = t at h
  induction h with
  | quote t =>
    subst ht
    simp [closeSpan, SpanState.step, prepend, extend]
  | plain hq hb _ ih => simp [closeSpan, SpanState.step, hq, hb, ih ht, extend_prepend]
  | escape c _ ih => simp [closeSpan, SpanState.step, ih ht, extend_prepend]

/-- The search steps over items. -/
theorem IsItems.closeSpan_append (h : IsItems w) (depth : Nat) (r : List Char) :
    closeSpan depth .code (w ++ r) = prepend w (closeSpan depth .code r) := by
  induction h generalizing depth r with
  | nil => exact (prepend_nil _).symm
  | char hq ho hc _ ih => simp [closeSpan, SpanState.step, hq, ho, hc, ih, extend_prepend]
  | string hs _ ih =>
    rw [List.cons_append, List.append_assoc, closeSpan_quote, hs.closeSpan_append, ih,
      prepend_prepend, extend_prepend]
  | span _ _ ih₁ ih₂ =>
    rw [List.cons_append, List.append_assoc, closeSpan_open, ih₁, List.cons_append,
      closeSpan_close, ih₂, extend_prepend, extend_prepend, prepend_prepend, List.cons_append]

/-- What closes `depth` inner braces and the one of the span, from a state on. -/
inductive Ends : Nat → SpanState → List Char → Prop where
  | last {w : List Char} (h : IsItems w) : Ends 0 .code (w ++ ['}'])
  | inner {depth : Nat} {v w : List Char} (hv : IsItems v) (h : Ends depth .code w) :
      Ends (depth + 1) .code (v ++ '}' :: w)
  | string {depth : Nat} {s w : List Char} (hs : Closes s []) (h : Ends depth .code w) :
      Ends depth .string (s ++ w)
  | escape {depth : Nat} {w : List Char} (c : Char) (h : Ends depth .string w) :
      Ends depth .escape (c :: w)

namespace Ends

theorem append_left (hv : IsItems v) (h : Ends depth .code w) : Ends depth .code (v ++ w) := by
  cases h with
  | last hw =>
    rw [← List.append_assoc]
    exact .last (hv.append hw)
  | inner hw h =>
    rw [← List.append_assoc]
    exact .inner (hv.append hw) h

theorem cons_open (h : Ends (depth + 1) .code w) : Ends depth .code ('{' :: w) := by
  cases h with
  | @inner _ v w hv h => simpa using h.append_left (.span hv .nil)

theorem cons_quote (h : Ends depth .string w) : Ends depth .code ('"' :: w) := by
  cases h with
  | string hs h => simpa using h.append_left (.string hs .nil)

theorem cons_backslash (h : Ends depth .escape w) : Ends depth .string ('\\' :: w) := by
  cases h with
  | escape c h =>
    cases h with
    | string hs h => exact .string (.escape c hs) h

theorem cons_plain (hq : c ≠ '"') (hb : c ≠ '\\') (h : Ends depth .string w) :
    Ends depth .string (c :: w) := by
  cases h with
  | string hs h => exact .string (.plain hq hb hs) h

/-- A character that opens and closes no brace goes in front of what ends the span from the
state behind it. -/
theorem cons_step (ho : ¬(q = .code ∧ c = '{')) (hc : ¬(q = .code ∧ c = '}'))
    (h : Ends depth (q.step c) w) : Ends depth q (c :: w) := by
  cases q with
  | code =>
    by_cases hq : c = '"'
    · subst hq
      exact cons_quote (by simpa [SpanState.step] using h)
    · have hchar : IsItems [c] := .char hq (by simpa using ho) (by simpa using hc) .nil
      exact append_left hchar (by simpa [SpanState.step, hq] using h)
  | string =>
    by_cases hb : c = '\\'
    · subst hb
      exact cons_backslash (by simpa [SpanState.step] using h)
    by_cases hq : c = '"'
    · subst hq
      exact .string (.quote []) (by simpa [SpanState.step] using h)
    · exact cons_plain hq hb (by simpa [SpanState.step, hb, hq] using h)
  | escape => exact .escape c h

theorem closeSpan_append (h : Ends depth q w) (r : List Char) :
    closeSpan depth q (w ++ r) = some (w, r) := by
  induction h with
  | last hw =>
    rw [List.append_assoc, hw.closeSpan_append, List.singleton_append, closeSpan_end]
    rfl
  | inner hv _ ih =>
    rw [List.append_assoc, hv.closeSpan_append, List.cons_append, closeSpan_close, ih]
    rfl
  | string hs _ ih =>
    rw [List.append_assoc, hs.closeSpan_append, ih]
    rfl
  | escape c _ ih => simp [closeSpan, SpanState.step, ih, extend]

theorem exists_concat (h : Ends depth q w) : ∃ u, w = u ++ ['}'] := by
  induction h with
  | last => exact ⟨_, rfl⟩
  | @inner _ v _ _ _ ih =>
    obtain ⟨u, rfl⟩ := ih
    exact ⟨v ++ '}' :: u, by simp⟩
  | @string _ s _ _ _ ih =>
    obtain ⟨u, rfl⟩ := ih
    exact ⟨s ++ u, by simp⟩
  | escape c _ ih =>
    obtain ⟨u, rfl⟩ := ih
    exact ⟨c :: u, rfl⟩

theorem of_closeSpan (h : closeSpan depth q s = some (w, r)) : Ends depth q w := by
  fun_induction closeSpan depth q s generalizing w with
  | case1 => simp at h
  | case2 depth q c s hc ih =>
    obtain ⟨w, hw, rfl⟩ := extend_eq_some_iff.1 h
    obtain ⟨rfl, rfl⟩ := hc
    exact (ih hw).cons_open
  | case3 q c s _ hc =>
    obtain ⟨rfl, rfl⟩ := hc
    obtain ⟨rfl, -⟩ := Prod.mk.inj (Option.some.inj h)
    exact .last .nil
  | case4 q c s _ hc depth ih =>
    obtain ⟨w, hw, rfl⟩ := extend_eq_some_iff.1 h
    obtain ⟨rfl, rfl⟩ := hc
    exact .inner .nil (ih hw)
  | case5 depth q c s ho hc ih =>
    obtain ⟨w, hw, rfl⟩ := extend_eq_some_iff.1 h
    exact (ih hw).cons_step ho hc

end Ends

theorem closeSpan_eq_some_iff :
    closeSpan depth q s = some (w, r) ↔ s = w ++ r ∧ Ends depth q w := by
  constructor
  · intro h
    exact ⟨(append_of_closeSpan h).symm, .of_closeSpan h⟩
  · rintro ⟨rfl, hw⟩
    exact hw.closeSpan_append r

theorem ends_iff_isSpan : Ends 0 .code w ↔ IsSpan ('{' :: w) := by
  constructor
  · rintro ⟨h⟩
    exact .mk h
  · rintro ⟨h⟩
    exact .last h

/-- The search from a brace on ends just where a span ends. -/
theorem closeSpan_zero_eq_some_iff :
    closeSpan 0 .code s = some (w, r) ↔ s = w ++ r ∧ IsSpan ('{' :: w) := by
  rw [closeSpan_eq_some_iff, ends_iff_isSpan]

theorem closeSpan_zero_eq_none_iff :
    closeSpan 0 .code s = none ↔ ∀ w, IsSpan w → ¬w <+: '{' :: s := by
  rw [Option.eq_none_iff_forall_not_mem]
  constructor
  · rintro h _ ⟨hw⟩ ⟨r, hr⟩
    exact h (_, r) (closeSpan_zero_eq_some_iff.mpr ⟨(List.cons.inj hr).2.symm, .mk hw⟩)
  · rintro h ⟨w, r⟩ hclose
    obtain ⟨rfl, hw⟩ := closeSpan_zero_eq_some_iff.mp hclose
    exact h _ hw (List.prefix_append ('{' :: w) r)

/-! ## The spans of a text -/

theorem spans_nil : spans [] = [] := by
  simp [spans]

theorem spans_cons {c : Char} (hc : c ≠ '{') (s : List Char) : spans (c :: s) = spans s := by
  rw [spans, if_neg hc]

theorem spans_open (h : closeSpan 0 .code s = some (w, r)) :
    spans ('{' :: s) = ('{' :: w) :: spans r := by
  rw [spans, if_pos rfl]
  split <;> simp_all

theorem spans_open_nil (h : closeSpan 0 .code s = none) : spans ('{' :: s) = [] := by
  rw [spans, if_pos rfl]
  split <;> simp_all

theorem spans_append_left (hp : '{' ∉ p) (s : List Char) : spans (p ++ s) = spans s := by
  induction p with
  | nil => rfl
  | cons c p ih =>
    obtain ⟨hc, hp⟩ := List.ne_and_not_mem_of_not_mem_cons hp
    rw [List.cons_append, spans_cons hc.symm, ih hp]

/-- The text is made of the given spans, text without opening braces in front of each of
them, and a rest: one without opening braces, or one whose first such brace begins no
span. -/
inductive HasSpans : List Char → List (List Char) → Prop where
  | none {p : List Char} (hp : '{' ∉ p) : HasSpans p []
  | unclosed {p s : List Char} (hp : '{' ∉ p) (hs : ∀ w, IsSpan w → ¬w <+: '{' :: s) :
      HasSpans (p ++ '{' :: s) []
  | span {p w r : List Char} {ss : List (List Char)} (hp : '{' ∉ p) (hw : IsSpan w)
      (hr : HasSpans r ss) : HasSpans (p ++ (w ++ r)) (w :: ss)

theorem HasSpans.cons (hc : c ≠ '{') (h : HasSpans s ss) : HasSpans (c :: s) ss := by
  have hmem : ∀ {p : List Char}, '{' ∉ p → '{' ∉ c :: p := fun hp h =>
    (List.mem_cons.mp h).elim (fun heq => hc heq.symm) hp
  cases h with
  | none hp => exact .none (hmem hp)
  | unclosed hp hs => exact .unclosed (hmem hp) hs
  | span hp hw hr => exact .span (hmem hp) hw hr

theorem hasSpans_spans (s : List Char) : HasSpans s (spans s) := by
  fun_induction spans s with
  | case1 => exact .none List.not_mem_nil
  | case2 s h => exact .unclosed (p := []) List.not_mem_nil (closeSpan_zero_eq_none_iff.mp h)
  | case3 s w r h ih =>
    obtain ⟨rfl, hw⟩ := closeSpan_zero_eq_some_iff.mp h
    exact .span (p := []) List.not_mem_nil hw ih
  | case4 c s hc ih => exact ih.cons hc

theorem HasSpans.eq_spans (h : HasSpans s ss) : ss = spans s := by
  induction h with
  | @none p hp => rw [← List.append_nil p, spans_append_left hp, spans_nil]
  | unclosed hp hs =>
    rw [spans_append_left hp, spans_open_nil (closeSpan_zero_eq_none_iff.mpr hs)]
  | @span p w r ss hp hw _ ih =>
    rw [spans_append_left hp]
    cases hw with
    | mk hw =>
      rw [List.cons_append, spans_open (closeSpan_zero_eq_some_iff.mpr ⟨rfl, .mk hw⟩), ih]

theorem hasSpans_iff_eq : HasSpans s ss ↔ ss = spans s := by
  constructor
  · exact HasSpans.eq_spans
  · rintro rfl
    exact hasSpans_spans s

/-! ## Counting the open braces -/

/-- A scan of a text: how many braces are open, the state, the text of the open span and the
spans that were closed. -/
structure Scan where
  depth : Int
  state : SpanState
  span : List Char
  found : List (List Char)

namespace Scan

def start : Scan := ⟨0, .code, [], []⟩

/-- The scan behind a closing brace. -/
def close (x : Scan) : Scan :=
  if x.depth - 1 = 0 then
    { x with depth := x.depth - 1, span := [], found := x.found ++ [x.span ++ ['}']] }
  else { x with depth := x.depth - 1, span := x.span ++ ['}'] }

/-- The scan behind one more character. -/
def step (x : Scan) (c : Char) : Scan :=
  if x.depth = 0 then
    if c = '{' then { x with depth := 1, span := ['{'] } else x
  else if x.state = .code ∧ c = '{' then { x with depth := x.depth + 1, span := x.span ++ [c] }
  else if x.state = .code ∧ c = '}' then x.close
  else { x with state := x.state.step c, span := x.span ++ [c] }

/-- The scan of a whole text. -/
def ofText (s : List Char) : Scan := s.foldl step start

/-- The count is not below zero, and no literal is open where no brace is. -/
structure Sound (x : Scan) : Prop where
  depth_nonneg : 0 ≤ x.depth
  state_eq : x.depth = 0 → x.state = .code

theorem Sound.step {x : Scan} (h : x.Sound) (c : Char) : (x.step c).Sound := by
  obtain ⟨hdepth, hstate⟩ := h
  unfold Scan.step
  split_ifs with h0 ho hopen hclose
  · exact ⟨by simp, by simp⟩
  · exact ⟨hdepth, hstate⟩
  · exact ⟨by simp only; omega, fun _ => hopen.1⟩
  · unfold close
    split_ifs with h1
    · exact ⟨by simp only; omega, fun _ => hclose.1⟩
    · exact ⟨by simp only; omega, fun _ => hclose.1⟩
  · exact ⟨hdepth, fun h => absurd h h0⟩

theorem sound_ofText (s : List Char) : (ofText s).Sound := by
  have hrun : ∀ x : Scan, x.Sound → (s.foldl Scan.step x).Sound := by
    induction s with
    | nil => exact fun _ hx => hx
    | cons c s ih => exact fun x hx => ih _ (hx.step c)
  exact hrun start ⟨Int.le_refl 0, fun _ => rfl⟩

/-! Within a span the scan is where the search for the closing brace is. -/

theorem step_start : step ⟨0, .code, [], ss⟩ '{' = ⟨(0 : Nat) + 1, .code, ['{'], ss⟩ := by
  simp [step]

theorem step_open (depth : Nat) :
    step ⟨depth + 1, .code, v, ss⟩ '{' = ⟨(depth + 1 : Nat) + 1, .code, v ++ ['{'], ss⟩ := by
  have hdepth : (depth : Int) + 1 ≠ 0 := by omega
  simp [step, hdepth]

theorem step_end : step ⟨(0 : Nat) + 1, .code, v, ss⟩ '}' = ⟨0, .code, [], ss ++ [v ++ ['}']]⟩ := by
  simp [step, close]

theorem step_close (depth : Nat) :
    step ⟨(depth + 1 : Nat) + 1, .code, v, ss⟩ '}' = ⟨depth + 1, .code, v ++ ['}'], ss⟩ := by
  have hdepth : (depth : Int) + 1 ≠ 0 := by omega
  have hinner : (depth : Int) + 1 + 1 ≠ 0 := by omega
  simp [step, close, hdepth, hinner]

theorem step_other (ho : ¬(q = .code ∧ c = '{')) (hc : ¬(q = .code ∧ c = '}')) (depth : Nat) :
    step ⟨depth + 1, q, v, ss⟩ c = ⟨depth + 1, q.step c, v ++ [c], ss⟩ := by
  have hdepth : (depth : Int) + 1 ≠ 0 := by omega
  simp only [step, hdepth, ho, hc, if_false]

theorem foldl_of_closeSpan (h : closeSpan depth q s = some (w, r)) :
    s.foldl step ⟨depth + 1, q, v, ss⟩ = r.foldl step ⟨0, .code, [], ss ++ [v ++ w]⟩ := by
  fun_induction closeSpan depth q s generalizing v w with
  | case1 => simp at h
  | case2 depth q c s hc ih =>
    obtain ⟨w, hw, rfl⟩ := extend_eq_some_iff.1 h
    obtain ⟨rfl, rfl⟩ := hc
    rw [List.foldl_cons, step_open, ih hw, List.append_assoc, List.singleton_append]
  | case3 q c s _ hc =>
    obtain ⟨rfl, rfl⟩ := hc
    obtain ⟨rfl, rfl⟩ := Prod.mk.inj (Option.some.inj h)
    rw [List.foldl_cons, step_end]
  | case4 q c s _ hc depth ih =>
    obtain ⟨w, hw, rfl⟩ := extend_eq_some_iff.1 h
    obtain ⟨rfl, rfl⟩ := hc
    rw [List.foldl_cons, step_close, ih hw, List.append_assoc, List.singleton_append]
  | case5 depth q c s ho hc ih =>
    obtain ⟨w, hw, rfl⟩ := extend_eq_some_iff.1 h
    rw [List.foldl_cons, step_other ho hc, ih hw, List.append_assoc, List.singleton_append]

theorem found_of_closeSpan_eq_none (h : closeSpan depth q s = none) :
    (s.foldl step ⟨depth + 1, q, v, ss⟩).found = ss := by
  fun_induction closeSpan depth q s generalizing v with
  | case1 => rfl
  | case2 depth q c s hc ih =>
    obtain ⟨rfl, rfl⟩ := hc
    rw [List.foldl_cons, step_open, ih (Option.map_eq_none_iff.mp h)]
  | case3 => simp at h
  | case4 q c s _ hc depth ih =>
    obtain ⟨rfl, rfl⟩ := hc
    rw [List.foldl_cons, step_close, ih (Option.map_eq_none_iff.mp h)]
  | case5 depth q c s ho hc ih =>
    rw [List.foldl_cons, step_other ho hc, ih (Option.map_eq_none_iff.mp h)]

theorem found_foldl (s : List Char) (ss : List (List Char)) :
    (s.foldl step ⟨0, .code, [], ss⟩).found = ss ++ spans s := by
  fun_induction spans s generalizing ss with
  | case1 => simp
  | case2 s h =>
    rw [List.foldl_cons, step_start, found_of_closeSpan_eq_none h, List.append_nil]
  | case3 s w r h ih =>
    rw [List.foldl_cons, step_start, foldl_of_closeSpan h, ih, List.append_assoc]
    rfl
  | case4 c s hc ih =>
    have hstep : step ⟨0, .code, [], ss⟩ c = ⟨0, .code, [], ss⟩ := by simp [step, hc]
    rw [List.foldl_cons, hstep, ih]

theorem found_ofText (s : List Char) : (ofText s).found = spans s := by
  rw [ofText, start, found_foldl, List.nil_append]

end Scan

/-- The spans of a text are the only ones that the grammar gives it, and a scan that counts
the open braces finds them, with a count that at no place is below zero. -/
theorem hasSpans_iff (s : List Char) :
    (∀ ss, HasSpans s ss ↔ ss = spans s) ∧ (Scan.ofText s).found = spans s ∧
      ∀ t, t <+: s → 0 ≤ (Scan.ofText t).depth := by
  refine ⟨fun ss => hasSpans_iff_eq, Scan.found_ofText s, fun t _ => ?_⟩
  exact (Scan.sound_ofText t).depth_nonneg

end Salvage.Json
