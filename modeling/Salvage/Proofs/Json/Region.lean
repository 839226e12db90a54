import Salvage.Json.Extraction
import Salvage.Proofs.Json.Span
import Salvage.Proofs.Text.Blank
import Salvage.Proofs.Text.Pattern

/-! # The region of a text

Spans depend on no text in front of the first opening brace or behind the last closing
brace. So the part of a text from its first opening to its last closing bracket has the spans
of the whole text, whatever brackets stand around them, and only the erasure of fences can
change what is found.
-/

namespace Salvage.Json

open Text

variable {a b s t w r u : List Char} {c : Char}

/-! ## Text around spans -/

/-- Puts a stretch of text behind what a search leaves. -/
def follow (b : List Char) (x : Option (List Char × List Char)) :
    Option (List Char × List Char) :=
  x.map fun (stretch, rest) => (stretch, rest ++ b)

theorem extend_follow (c : Char) (b : List Char) (x : Option (List Char × List Char)) :
    extend c (follow b x) = follow b (extend c x) := by
  cases x <;> rfl

theorem closeSpan_eq_none (hb : '}' ∉ b) (depth : Nat) (q : SpanState) :
    closeSpan depth q b = none := by
  fun_induction closeSpan depth q b with
  | case1 => rfl
  | case2 depth q c s hc ih =>
    rw [ih fun h => hb (List.mem_cons_of_mem c h), extend, Option.map_none]
  | case3 q c s ho hc => exact absurd (hc.2 ▸ List.mem_cons_self) hb
  | case4 q c s ho hc => exact absurd (hc.2 ▸ List.mem_cons_self) hb
  | case5 depth q c s ho hc ih =>
    rw [ih fun h => hb (List.mem_cons_of_mem c h), extend, Option.map_none]

/-- The search ends where it did, or still does not end. -/
theorem closeSpan_append (hb : '}' ∉ b) (depth : Nat) (q : SpanState) (s : List Char) :
    closeSpan depth q (s ++ b) = follow b (closeSpan depth q s) := by
  fun_induction closeSpan depth q s with
  | case1 depth q => exact closeSpan_eq_none hb depth q
  | case2 depth q c s hc ih =>
    obtain ⟨rfl, rfl⟩ := hc
    rw [List.cons_append, closeSpan_open, ih, extend_follow]
  | case3 q c s ho hc =>
    obtain ⟨rfl, rfl⟩ := hc
    rw [List.cons_append, closeSpan_end]
    rfl
  | case4 q c s ho hc depth ih =>
    obtain ⟨rfl, rfl⟩ := hc
    rw [List.cons_append, closeSpan_close, ih, extend_follow]
  | case5 depth q c s ho hc ih =>
    simp only [List.cons_append, closeSpan, if_neg ho, if_neg hc, ih, extend_follow]

theorem spans_eq_nil (hb : '}' ∉ b) : spans b = [] := by
  induction b with
  | nil => exact spans_nil
  | cons c b ih =>
    have hrest : '}' ∉ b := fun h => hb (List.mem_cons_of_mem c h)
    by_cases hc : c = '{'
    · rw [hc, spans_open_nil (closeSpan_eq_none hrest 0 .code)]
    · rw [spans_cons hc, ih hrest]

theorem spans_append_right (s : List Char) (hb : '}' ∉ b) : spans (s ++ b) = spans s := by
  fun_induction spans s with
  | case1 => exact spans_eq_nil hb
  | case2 s h =>
    rw [List.cons_append, spans_open_nil]
    rw [closeSpan_append hb, h, follow, Option.map_none]
  | case3 s w r h ih =>
    have hclose : closeSpan 0 .code (s ++ b) = some (w, r ++ b) := by
      rw [closeSpan_append hb, h, follow, Option.map_some]
    rw [List.cons_append, spans_open hclose, ih]
  | case4 c s hc ih => rw [List.cons_append, spans_cons hc, ih]

/-- A part of a text that leaves out only what no span can use. -/
def IsCore (t s : List Char) : Prop := ∃ a b, s = a ++ (t ++ b) ∧ '{' ∉ a ∧ '}' ∉ b

namespace IsCore

theorem refl (s : List Char) : IsCore s s := ⟨[], [], by simp, by simp, by simp⟩

theorem trans (h₁ : IsCore r t) (h₂ : IsCore t s) : IsCore r s := by
  obtain ⟨a, b, rfl, ha, hb⟩ := h₁
  obtain ⟨a', b', rfl, ha', hb'⟩ := h₂
  refine ⟨a' ++ a, b ++ b', by simp, ?_, ?_⟩
  · simp [ha, ha']
  · simp [hb, hb']

theorem spans_eq (h : IsCore t s) : spans t = spans s := by
  obtain ⟨a, b, rfl, ha, hb⟩ := h
  rw [spans_append_left ha, spans_append_right t hb]

end IsCore

theorem isCore_dropWhile {p : Char → Bool} (hp : p '{' = false) (s : List Char) :
    IsCore (s.dropWhile p) s := by
  refine ⟨s.takeWhile p, [], by simp, fun h => ?_, by simp⟩
  have hopen := List.mem_takeWhile_imp h
  simp [hp] at hopen

theorem isCore_dropEnd {p : Char → Bool} (hp : p '}' = false) (s : List Char) :
    IsCore (s.reverse.dropWhile p).reverse s := by
  refine ⟨[], (s.reverse.takeWhile p).reverse, ?_, by simp, fun h => ?_⟩
  · rw [List.nil_append, dropWhile_reverse_append]
  · have hclose := List.mem_takeWhile_imp (List.mem_reverse.mp h)
    simp [hp] at hclose

theorem isCore_trim (s : List Char) : IsCore (trim s) s :=
  (isCore_dropWhile (by decide) _).trans (isCore_dropEnd (by decide) s)

/-! ## The region -/

/-- What is kept of a text: the part from its first opening bracket to its last closing one, or
all of it where no closing bracket stands behind an opening one. -/
inductive IsRegion : List Char → List Char → Prop where
  | brackets {a r b : List Char} (ha : ∀ c ∈ a, isOpening c = false)
      (hopen : ∃ c ∈ r.head?, isOpening c = true) (hclose : ∃ c ∈ r.getLast?, isClosing c = true)
      (hb : ∀ c ∈ b, isClosing c = false) : IsRegion (a ++ (r ++ b)) r
  | whole {s : List Char} (h : ∀ a c b, s = a ++ c :: b → isOpening c = true →
      ∀ d ∈ b, isClosing d = false) : IsRegion s s

/-- Behind an opening bracket nothing is in front of the first one. -/
theorem mem_dropWhile_of_isOpening (hc : isOpening c = true) (h : s = a ++ c :: b) :
    ∀ d ∈ b, d ∈ s.dropWhile (!isOpening ·) := by
  intro d hd
  rw [h, List.dropWhile_append]
  split
  · rw [List.dropWhile_cons_of_neg (by simp [hc])]
    exact List.mem_cons_of_mem c hd
  · exact List.mem_append_right _ (List.mem_cons_of_mem c hd)

theorem isRegion_bracketed (s : List Char) : IsRegion s (bracketed s) := by
  have hfront : ∀ c ∈ s.takeWhile (!isOpening ·), isOpening c = false := fun c hc => by
    simpa using List.mem_takeWhile_imp hc
  have hopen : ∀ c ∈ (s.dropWhile (!isOpening ·)).head?, isOpening c = true := fun c hc => by
    simpa using head?_dropWhile s c hc
  have hsplit : s = s.takeWhile (!isOpening ·) ++ s.dropWhile (!isOpening ·) :=
    List.takeWhile_append_dropWhile.symm
  simp only [bracketed]
  generalize hrest : s.dropWhile (!isOpening ·) = rest at *
  split
  · rename_i hempty
    have hclosing : ∀ d ∈ rest, isClosing d = false := by simpa using hempty
    refine .whole fun a c b hs hc d hd => hclosing d ?_
    exact hrest ▸ mem_dropWhile_of_isOpening hc hs d hd
  · rename_i hregion
    have hregion : rest.reverse.dropWhile (!isClosing ·) ≠ [] := by simpa using hregion
    have hne : rest ≠ [] := by
      rintro rfl
      simp at hregion
    conv_lhs => rw [hsplit, ← dropWhile_reverse_append (!isClosing ·) rest]
    refine .brackets hfront ?_ ?_ fun c hc => ?_
    · rw [head?_dropWhile_reverse hregion]
      exact ⟨_, List.head?_eq_some_head hne, hopen _ (List.head?_eq_some_head hne)⟩
    · rw [List.getLast?_reverse]
      refine ⟨_, List.head?_eq_some_head hregion, ?_⟩
      simpa using head?_dropWhile _ _ (List.head?_eq_some_head hregion)
    · simpa using List.mem_takeWhile_imp (List.mem_reverse.mp hc)

theorem isBlank_of_isOpening {c : Char} (hc : isOpening c = true) : isBlank c = false := by
  simp only [isOpening, Bool.or_eq_true, beq_iff_eq] at hc
  rcases hc with rfl | rfl <;> decide

theorem isBlank_of_isClosing {c : Char} (hc : isClosing c = true) : isBlank c = false := by
  simp only [isClosing, Bool.or_eq_true, beq_iff_eq] at hc
  rcases hc with rfl | rfl <;> decide

/-- The text begins with an opening bracket and ends with a closing one. -/
def IsBracketed (r : List Char) : Prop :=
  (∃ c ∈ r.head?, isOpening c = true) ∧ ∃ c ∈ r.getLast?, isClosing c = true

theorem IsRegion.eq_or (h : IsRegion s r) : r = s ∨ IsBracketed r := by
  cases h with
  | brackets _ hopen hclose => exact .inr ⟨hopen, hclose⟩
  | whole => exact .inl rfl

theorem IsBracketed.tight (h : IsBracketed r) : Tight r := by
  obtain ⟨⟨c, hc, hopen⟩, d, hd, hclose⟩ := h
  exact ⟨⟨c, hc, isBlank_of_isOpening hopen⟩, d, hd, isBlank_of_isClosing hclose⟩

theorem IsRegion.isCore (h : IsRegion s r) : IsCore r s := by
  cases h with
  | @brackets a _ b ha _ _ hb =>
    refine ⟨a, b, rfl, fun hopen => ?_, fun hclose => ?_⟩
    · exact absurd (ha _ hopen) (by decide)
    · exact absurd (hb _ hclose) (by decide)
  | whole => exact .refl s

theorem isCore_unfence (s : List Char) : IsCore (unfence s) (fenceMarker.eraseAll s) :=
  (isRegion_bracketed _).isCore.trans (isCore_trim _)

/-- Only the erasure of fences changes the candidates of a text. -/
theorem candidates_unfence (s : List Char) :
    candidates (unfence s) = candidates (fenceMarker.eraseAll s) := by
  rw [candidates, candidates, (isCore_unfence s).spans_eq]

/-! ## Texts without a fence -/

theorem fence_infix_of_afterFence? (h : afterFence? t = some r) (hs : t <:+ s) : fence <:+: s := by
  rw [afterFence?, dropWord?_beq_eq_some_iff] at h
  exact (h ▸ (List.prefix_append fence r).isInfix).trans hs.isInfix

theorem afterFence?_eq_none (hf : ¬fence <:+: s) (hs : t <:+ s) : afterFence? t = none := by
  cases h : afterFence? t with
  | none => rfl
  | some r => exact absurd (fence_infix_of_afterFence? h hs) hf

theorem afterFence?_cons {c : Char} (hc : c ≠ '\x60') (s : List Char) :
    afterFence? (c :: s) = none := by
  have hbeq : ('\x60' == c) = false := beq_false_of_ne (Ne.symm hc)
  simp [afterFence?, fence, dropWord?, hbeq]

theorem eraseAll_fenceMarker (hf : ¬fence <:+: s) : fenceMarker.eraseAll s = s := by
  apply Pattern.eraseAll_eq_self
  intro t ht
  simp [fenceMarker, afterFence?_eq_none hf ht]

theorem fencedCandidates_eq_nil (hf : ¬fence <:+: s) : fencedCandidates s = [] := by
  have hblocks : fencedBlock.findAll s = [] := by
    apply Pattern.findAll_eq_nil
    intro t ht
    simp [fencedBlock, afterFence?_eq_none hf ht]
  rw [fencedCandidates, hblocks, List.flatMap_nil]

/-- The text without fences is trimmed and cut down to its region, which has the balanced
objects of that text, each as it was. So the same candidates are found in it, and those of the
text itself where it has no fence. -/
theorem isRegion_unfence (s : List Char) :
    IsRegion (trim (fenceMarker.eraseAll s)) (unfence s) ∧
      (∀ ss, HasSpans (unfence s) ss ↔ HasSpans (fenceMarker.eraseAll s) ss) ∧
      candidates (unfence s) = candidates (fenceMarker.eraseAll s) ∧
      (¬fence <:+: s → candidates (unfence s) = candidates s) := by
  refine ⟨isRegion_bracketed _, fun ss => ?_, candidates_unfence s, fun hf => ?_⟩
  · rw [hasSpans_iff_eq, hasSpans_iff_eq, (isCore_unfence s).spans_eq]
  · rw [candidates_unfence, eraseAll_fenceMarker hf]

theorem isRegion_unfence_crossing :
    ¬fence <:+: [']', ' ', '{', '"', '[', '"', '}', ' ', '[', ' ', '{'] ∧
      candidates (unfence [']', ' ', '{', '"', '[', '"', '}', ' ', '[', ' ', '{']) =
        candidates [']', ' ', '{', '"', '[', '"', '}', ' ', '[', ' ', '{'] := by
  have hf : ¬fence <:+: [']', ' ', '{', '"', '[', '"', '}', ' ', '[', ' ', '{'] := by decide
  exact ⟨hf, (isRegion_unfence _).2.2.2 hf⟩

end Salvage.Json
