import Salvage.Proofs.Json.Unfenced
import Salvage.Proofs.Text.Blank

/-! # What the erasure of fences leaves

Of a run of backticks up to two are left, and then the character behind the run is left too,
because a language is only erased with a fence in front of it. So what is left never joins into
a fence, and a text that was cut down to its region stays as it is.
-/

namespace Salvage.Json

open Text

variable {r s : List Char}

/-! ## Leftover backticks -/

theorem fenceMarker_run_eq_none_iff : fenceMarker.run s = none ↔ ¬fence <+: s := by
  constructor
  · rintro h ⟨r, rfl⟩
    have hfence : afterFence? (fence ++ r) = some r := dropWord?_beq_eq_some_iff.mpr rfl
    simp [fenceMarker, hfence, tagSkips] at h
  · intro h
    cases hfence : afterFence? s with
    | none => simp [fenceMarker, hfence]
    | some r =>
      obtain rfl := dropWord?_beq_eq_some_iff.mp hfence
      exact absurd (List.prefix_append fence r) h

theorem withoutFences_cons_of_not_startsWith {c : Char} (h : ¬fence <+: c :: s) :
    withoutFences (c :: s) = c :: withoutFences s :=
  Pattern.eraseAll_cons (fenceMarker_run_eq_none_iff.mpr h)

/-- Where no fence begins, erasing the fences behind it makes none begin. -/
theorem not_fence_prefix_withoutFences (h : ¬fence <+: s) : ¬fence <+: withoutFences s := by
  have hmark : ∀ {t u : List Char}, t.head? ≠ some '\x60' → ¬ '\x60' :: u <+: t := by
    rintro _ u ht ⟨v, rfl⟩
    exact ht rfl
  by_cases hs : s.head? = some '\x60'
  · obtain ⟨s, rfl⟩ := List.head?_eq_some_iff.mp hs
    rw [withoutFences_cons_of_not_startsWith h]
    simp only [fence, List.cons_prefix_cons, true_and] at h ⊢
    by_cases hs : s.head? = some '\x60'
    · -- Of two backticks in front the second one begins no fence either.
      obtain ⟨t, rfl⟩ := List.head?_eq_some_iff.mp hs
      simp only [List.cons_prefix_cons, true_and] at h
      have ht : t.head? ≠ some '\x60' := by
        rintro ht
        obtain ⟨u, rfl⟩ := List.head?_eq_some_iff.mp ht
        simp at h
      rw [withoutFences_cons_of_not_startsWith (by simpa [fence] using hmark ht)]
      simpa using hmark ((head?_withoutFences ht).trans_ne ht)
    · exact hmark ((head?_withoutFences hs).trans_ne hs)
  · exact hmark ((head?_withoutFences hs).trans_ne hs)

theorem not_fence_infix_withoutFences (s : List Char) : ¬fence <:+: withoutFences s := by
  induction hn : s.length using Nat.strong_induction_on generalizing s with
  | h n ih =>
    subst hn
    cases hrun : fenceMarker.run s with
    | some x =>
      rw [withoutFences, Pattern.eraseAll_of_run_eq_some hrun]
      exact ih x.2.length (fenceMarker.shorter hrun) x.2 rfl
    | none =>
      have hprefix := fenceMarker_run_eq_none_iff.mp hrun
      cases s with
      | nil =>
        rw [withoutFences_nil]
        decide
      | cons c s =>
        have hstart := not_fence_prefix_withoutFences hprefix
        rw [withoutFences_cons_of_not_startsWith hprefix] at hstart ⊢
        rw [List.infix_cons_iff, not_or]
        exact ⟨hstart, ih s.length (by simp) s rfl⟩

/-! ## Texts that stay -/

theorem IsRegion.isInfix (h : IsRegion s r) : r <:+: s := by
  cases h with
  | @brackets a r b => exact ⟨a, b, by simp⟩
  | whole => exact List.infix_rfl

theorem IsBracketed.bracketed_eq (h : IsBracketed r) : bracketed r = r := by
  obtain ⟨⟨c, hc, hopen⟩, d, hd, hclose⟩ := h
  have hfront : r.dropWhile (!isOpening ·) = r :=
    dropWhile_eq_self_of_head? fun a ha => by
      obtain rfl := Option.some.inj (hc.symm.trans ha)
      simp [hopen]
  have hback : r.reverse.dropWhile (!isClosing ·) = r.reverse :=
    dropWhile_eq_self_of_head? fun a ha => by
      rw [List.head?_reverse] at ha
      obtain rfl := Option.some.inj (hd.symm.trans ha)
      simp [hclose]
  simp only [bracketed, hfront, hback, List.reverse_reverse, ite_self]

/-- The erasure of fences leaves no fence, in the whole text and in its region, and a text from
which fences are gone stays as it is. -/
theorem unfence_unfence (s : List Char) :
    ¬fence <:+: fenceMarker.eraseAll s ∧ ¬fence <:+: unfence s ∧
      unfence (unfence s) = unfence s := by
  have hnone := not_fence_infix_withoutFences s
  have hregion : IsRegion (trim (withoutFences s)) (unfence s) := isRegion_bracketed _
  have hf : ¬fence <:+: unfence s := fun h =>
    hnone (h.trans (hregion.isInfix.trans (isInfix_trim _)))
  refine ⟨hnone, hf, ?_⟩
  conv_lhs => rw [unfence, eraseAll_fenceMarker hf]
  rcases hregion.eq_or with hwhole | hbrackets
  · rw [hwhole, trim_trim]
    exact hwhole
  · rw [trim_of_tight hbrackets.tight, hbrackets.bracketed_eq]

end Salvage.Json
