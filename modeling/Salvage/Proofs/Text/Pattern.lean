import Salvage.Text.Letter
import Salvage.Text.Pattern

/-! # Words and matches

What a word takes is read letter by letter. Where no suffix of a text begins with a match,
there is nothing to find and nothing to erase.
-/

namespace Salvage.Text

theorem exists_of_dropWord? {same : Char → Char → Bool} {word s r : List Char}
    (h : dropWord? same word s = some r) :
    ∃ w, s = w ++ r ∧ ∀ c ∈ w, ∃ a ∈ word, same a c = true := by
  fun_induction dropWord? same word s with
  | case1 s =>
    obtain rfl := Option.some.inj h
    exact ⟨[], rfl, by simp⟩
  | case2 a ws c s hc ih =>
    obtain ⟨w, rfl, hw⟩ := ih h
    refine ⟨c :: w, rfl, fun d hd => ?_⟩
    rcases List.mem_cons.mp hd with rfl | hd
    · exact ⟨a, List.mem_cons_self, hc⟩
    · obtain ⟨b, hb, hsame⟩ := hw d hd
      exact ⟨b, List.mem_cons_of_mem a hb, hsame⟩
  | case3 => simp at h
  | case4 => simp at h

theorem dropWord?_beq_eq_some_iff {word s r : List Char} :
    dropWord? (· == ·) word s = some r ↔ s = word ++ r := by
  fun_induction dropWord? (· == ·) word s with
  | case1 s => simp
  | case2 a ws c s hc ih =>
    obtain rfl := eq_of_beq hc
    simpa using ih
  | case3 a ws c s hc =>
    have hne : c ≠ a := by
      rintro rfl
      exact hc BEq.rfl
    simp [hne]
  | case4 => simp

namespace Pattern

variable {α : Type} {p : Pattern α} {a : α} {c : Char} {s r : List Char}

theorem run_nil (p : Pattern α) : p.run [] = none := by
  cases h : p.run [] with
  | none => rfl
  | some x => exact absurd (p.shorter h) (Nat.not_lt_zero _)

theorem eraseAll_nil (p : Pattern α) : p.eraseAll [] = [] := by
  rw [eraseAll]
  split
  · simp_all [p.run_nil]
  · rfl

theorem eraseAll_of_run_eq_some (h : p.run s = some (a, r)) : p.eraseAll s = p.eraseAll r := by
  rw [eraseAll]
  split <;> simp_all

theorem eraseAll_cons (h : p.run (c :: r) = none) : p.eraseAll (c :: r) = c :: p.eraseAll r := by
  rw [eraseAll]
  split <;> simp_all

theorem findAll_nil (p : Pattern α) : p.findAll [] = [] := by
  rw [findAll]
  split
  · simp_all [p.run_nil]
  · rfl

theorem findAll_cons (h : p.run (c :: r) = none) : p.findAll (c :: r) = p.findAll r := by
  rw [findAll]
  split <;> simp_all

theorem findAll_of_run_eq_some (h : p.run s = some (a, r)) :
    p.findAll s = a :: p.findAll r := by
  rw [findAll]
  split <;> simp_all

/-- Text in which no match can begin is passed over. -/
theorem findAll_append_of_run_eq_none {w : List Char} (h : ∀ c ∈ w, ∀ t, p.run (c :: t) = none)
    (s : List Char) : p.findAll (w ++ s) = p.findAll s := by
  induction w with
  | nil => rfl
  | cons c w ih =>
    rw [List.cons_append, findAll_cons (h c List.mem_cons_self _),
      ih fun d hd => h d (List.mem_cons_of_mem c hd)]

/-- Each match is read at some place of the text. -/
theorem exists_of_mem_findAll (hrest : ∀ {t a r}, p.run t = some (a, r) → r <:+ t)
    (h : a ∈ p.findAll s) : ∃ t r, t <:+ s ∧ p.run t = some (a, r) := by
  fun_induction findAll p s with
  | case1 s b r hrun ih =>
    rcases List.mem_cons.mp h with rfl | h
    · exact ⟨s, r, List.suffix_refl s, hrun⟩
    · obtain ⟨t, u, ht, hu⟩ := ih h
      exact ⟨t, u, ht.trans (hrest hrun), hu⟩
  | case2 => simp at h
  | case3 c r hrun ih =>
    obtain ⟨t, u, ht, hu⟩ := ih h
    exact ⟨t, u, ht.trans (List.suffix_cons c r), hu⟩

/-- The search for matches in the first text comes to the second one. -/
inductive Reaches (p : Pattern α) : List Char → List Char → Prop where
  | refl (s : List Char) : Reaches p s s
  | found {s t u : List Char} {a : α} (h : p.run s = some (a, t)) (hu : Reaches p t u) :
      Reaches p s u
  | skip {c : Char} {t u : List Char} (h : p.run (c :: t) = none) (hu : Reaches p t u) :
      Reaches p (c :: t) u

/-- A text without a match stays as it is. -/
theorem eraseAll_eq_self (h : ∀ t, t <:+ s → p.run t = none) : p.eraseAll s = s := by
  induction s with
  | nil => exact p.eraseAll_nil
  | cons c r ih =>
    rw [eraseAll_cons (h _ (List.suffix_refl _)),
      ih fun t ht => h t (ht.trans (List.suffix_cons c r))]

theorem findAll_eq_nil (h : ∀ t, t <:+ s → p.run t = none) : p.findAll s = [] := by
  induction s with
  | nil => exact p.findAll_nil
  | cons c r ih =>
    rw [findAll_cons (h _ (List.suffix_refl _)),
      ih fun t ht => h t (ht.trans (List.suffix_cons c r))]

end Pattern

/-! ## Stretches up to an end -/

section

variable {close : List Char → Option (List Char)} {w s t r : List Char} {c : Char}

theorem upTo_cons_of_close (h : close s = some r) : upTo close (c :: s) = some ([c], r) := by
  rw [upTo, h]

theorem upTo_cons (h : close s = none) : upTo close (c :: s) = extend c (upTo close s) := by
  rw [upTo, h]

/-- A stretch that is closed behind it and nowhere before is taken as a whole. -/
theorem upTo_append (ht : close t = some r)
    (hnone : ∀ u, u ≠ [] → u <:+ w → close (u ++ t) = none) :
    upTo close (c :: (w ++ t)) = some (c :: w, r) := by
  induction w generalizing c with
  | nil => exact upTo_cons_of_close ht
  | cons d w ih =>
    rw [upTo_cons (hnone _ (List.cons_ne_nil d w) (List.suffix_refl _)), List.cons_append,
      ih fun u hu h => hnone u hu (h.trans (List.suffix_cons d w)), extend, Option.map_some]

theorem isSome_upTo_append (ht : (close t).isSome) (hw : w ≠ []) :
    (upTo close (w ++ t)).isSome := by
  induction w with
  | nil => exact absurd rfl hw
  | cons c w ih =>
    rw [List.cons_append]
    cases h : close (w ++ t) with
    | some r => simp [upTo_cons_of_close h]
    | none =>
      have hne : w ≠ [] := by
        rintro rfl
        simp_all
      rw [upTo_cons h, extend, Option.isSome_map]
      exact ih hne

theorem exists_of_upTo (h : upTo close s = some (w, r)) :
    ∃ t, s = w ++ t ∧ w ≠ [] ∧ close t = some r := by
  induction s generalizing w with
  | nil => simp [upTo] at h
  | cons c s ih =>
    cases hs : close s with
    | some t =>
      rw [upTo_cons_of_close hs] at h
      obtain ⟨rfl, rfl⟩ := Prod.mk.inj (Option.some.inj h)
      exact ⟨s, rfl, by simp, hs⟩
    | none =>
      rw [upTo_cons hs] at h
      obtain ⟨v, hv, rfl⟩ := extend_eq_some_iff.mp h
      obtain ⟨t, rfl, -, ht⟩ := ih hv
      exact ⟨t, rfl, by simp, ht⟩

end

end Salvage.Text
