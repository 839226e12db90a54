import Salvage.Proofs.Json.Region

/-! # Objects in prose

Where prose holds no opening brace, and the whole text no fence, just the objects between the
prose are found.
-/

namespace Salvage.Json

variable {s t : List Char}

/-! ## Objects between prose -/

/-- Objects in order, with prose around them that opens no brace. -/
inductive Mixed : List Char → List Value → Prop where
  | prose {p : List Char} (hp : '{' ∉ p) : Mixed p []
  | object {p s t : List Char} {v : Value} {vs : List Value} (hp : '{' ∉ p)
      (hs : IsObjectText s v) (h : Mixed t vs) : Mixed (p ++ s ++ t) (v :: vs)

theorem IsObjectText.ofSpan {v : Value} (h : IsObjectText s v) :
    Candidate.ofSpan s = ⟨s, .parsed v⟩ := by
  simp [Candidate.ofSpan, h.reads]

theorem candidates_eq_nil {p : List Char} (hp : '{' ∉ p) : candidates p = [] := by
  rw [candidates, ← List.append_nil p, spans_append_left hp, spans_nil, List.map_nil]

theorem candidates_append {v : Value} (h : IsObjectText s v) (u : List Char) :
    candidates (s ++ u) = ⟨s, .parsed v⟩ :: candidates u := by
  rw [candidates, h.spans_append, List.map_cons, h.ofSpan, candidates]

/-- Every candidate is one of the objects as it stands. -/
theorem Mixed.values_and_failures {vs : List Value} (h : Mixed t vs) :
    values (candidates t) = vs ∧ failures (candidates t) = 0 := by
  induction h with
  | @prose p hp =>
    rw [candidates_eq_nil hp]
    exact ⟨rfl, rfl⟩
  | @object p s t v vs hp hs _ ih =>
    have hcons : candidates (p ++ s ++ t) = ⟨s, .parsed v⟩ :: candidates t := by
      rw [List.append_assoc, ← candidates_append hs, candidates, spans_append_left hp,
        candidates]
    rw [hcons]
    obtain ⟨hvalues, hfailures⟩ := ih
    constructor
    · rw [← hvalues]
      rfl
    · rw [← hfailures]
      rfl

/-- The objects between prose are found, each once and in order. -/
theorem extract_of_mixed {vs : List Value} (h : Mixed t vs) (hvs : vs ≠ [])
    (hf : ¬fence <:+: t) : extract t = .ok ⟨vs, 0, .wholeText⟩ := by
  obtain ⟨hvalues, hfailures⟩ := h.values_and_failures
  have hnone : values ([] : List Candidate) = [] := rfl
  rw [extract, fencedCandidates_eq_nil hf, candidates_unfence, eraseAll_fenceMarker hf]
  simp [hnone, hvalues, hfailures, hvs]

theorem extract_of_mixed_two :
    extract (['}', ' '] ++ ['{', '"', '{', '"', ':', '1', '}'] ++ (['\'', '['] ++ ['{', ' ', '}'] ++
      ['\\'])) = .ok ⟨[.object [("\x7b", .number (.integer 1))], .object []], 0, .wholeText⟩ :=
  extract_of_mixed
    (.object (by decide) ⟨rfl, rfl, by decide +kernel⟩
      (.object (by decide) ⟨rfl, rfl, by decide +kernel⟩ (.prose (by decide))))
    (by simp) (by decide)

end Salvage.Json
