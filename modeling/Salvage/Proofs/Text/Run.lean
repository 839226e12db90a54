/-! # Runs of characters

A run ends where the first character stands that does not belong to it. What follows the
run decides nothing but where it ends.
-/

namespace Salvage.Text

variable {α : Type} {p : α → Bool} {s t : List α}

theorem takeWhile_eq_nil_of_head? (h : ∀ c ∈ t.head?, p c = false) : t.takeWhile p = [] := by
  cases t with
  | nil => rfl
  | cons c r => exact List.takeWhile_cons_of_neg (by simp [h c rfl])

theorem dropWhile_eq_self_of_head? (h : ∀ c ∈ t.head?, p c = false) : t.dropWhile p = t := by
  cases t with
  | nil => rfl
  | cons c r => exact List.dropWhile_cons_of_neg (by simp [h c rfl])

theorem takeWhile_append_of_head? (hs : ∀ c ∈ s, p c = true) (ht : ∀ c ∈ t.head?, p c = false) :
    (s ++ t).takeWhile p = s := by
  rw [List.takeWhile_append_of_pos hs, takeWhile_eq_nil_of_head? ht, List.append_nil]

theorem dropWhile_append_of_head? (hs : ∀ c ∈ s, p c = true) (ht : ∀ c ∈ t.head?, p c = false) :
    (s ++ t).dropWhile p = t := by
  rw [List.dropWhile_append_of_pos hs, dropWhile_eq_self_of_head? ht]

/-- A run that ends within the text ends there with more text behind it. -/
theorem takeWhile_append_of_dropWhile (h : s.dropWhile p ≠ []) (t : List α) :
    (s ++ t).takeWhile p = s.takeWhile p ∧ (s ++ t).dropWhile p = s.dropWhile p ++ t := by
  induction s with
  | nil => exact absurd rfl h
  | cons c s ih =>
    by_cases hc : p c = true
    · rw [List.dropWhile_cons_of_pos hc] at h
      obtain ⟨htake, hdrop⟩ := ih h
      simp [hc, htake, hdrop]
    · simp [hc]

theorem head?_dropWhile (s : List α) : ∀ c ∈ (s.dropWhile p).head?, p c = false := by
  intro c hc
  have hnot := List.head?_dropWhile_not p s
  rwa [Option.mem_def.mp hc] at hnot

theorem getLast?_dropWhile (h : s.dropWhile p ≠ []) : (s.dropWhile p).getLast? = s.getLast? := by
  have hlast := List.getLast?_eq_some_getLast h
  have hsplit : (s.takeWhile p ++ s.dropWhile p).getLast? = (s.dropWhile p).getLast? := by
    rw [List.getLast?_append, hlast, Option.some_or]
  rw [← hsplit, List.takeWhile_append_dropWhile]

/-- A text is parted where the run at its end begins. -/
theorem dropWhile_reverse_append (p : α → Bool) (s : List α) :
    (s.reverse.dropWhile p).reverse ++ (s.reverse.takeWhile p).reverse = s := by
  rw [← List.reverse_append, List.takeWhile_append_dropWhile, List.reverse_reverse]

theorem head?_dropWhile_reverse (h : s.reverse.dropWhile p ≠ []) :
    (s.reverse.dropWhile p).reverse.head? = s.head? := by
  rw [List.head?_reverse, getLast?_dropWhile h, List.getLast?_reverse]

/-- Of two ways to part a text, the first part that holds a character that the other one
lacks reaches further. -/
theorem exists_of_append_eq_append {c : α} {a b : List α} (h : s ++ t = a ++ b) (hs : c ∈ s)
    (ha : c ∉ a) : ∃ m, s = a ++ m ∧ b = m ++ t ∧ c ∈ m := by
  rcases List.append_eq_append_iff.mp h with ⟨m, rfl, -⟩ | ⟨m, rfl, hb⟩
  · exact absurd (List.mem_append_left m hs) ha
  · exact ⟨m, rfl, hb, (List.mem_append.mp hs).resolve_left ha⟩

theorem exists_of_append_cons_eq_append {c : α} {a b : List α} (h : s ++ c :: t = a ++ b)
    (ha : c ∉ a) : ∃ m, s = a ++ m ∧ b = m ++ c :: t := by
  rcases List.append_eq_append_iff.mp h with ⟨m, rfl, hb⟩ | ⟨m, rfl, hb⟩
  · obtain _ | ⟨d, m⟩ := m
    · exact ⟨[], by simp, hb.symm⟩
    · obtain ⟨rfl, -⟩ := List.cons.inj hb
      simp at ha
  · exact ⟨m, rfl, hb⟩

/-- Two runs from one place end together, or at a character that goes on one of them only. -/
theorem takeWhile_eq_or (p q : α → Bool) (t : List α) :
    (t.takeWhile p = t.takeWhile q ∧ t.dropWhile p = t.dropWhile q) ∨
      ∃ w c v, t = w ++ c :: v ∧ (∀ x ∈ w, p x = true ∧ q x = true) ∧ p c ≠ q c := by
  induction t with
  | nil => exact .inl ⟨rfl, rfl⟩
  | cons c t ih =>
    by_cases hc : p c = q c
    · cases hp : p c with
      | false => exact .inl (by simp [hp, ← hc])
      | true =>
        rcases ih with h | ⟨w, d, v, rfl, hw, hd⟩
        · exact .inl (by simp [hp, ← hc, h])
        · exact .inr ⟨c :: w, d, v, rfl, List.forall_mem_cons.mpr ⟨⟨hp, hc ▸ hp⟩, hw⟩, hd⟩
    · exact .inr ⟨[], c, t, rfl, by simp, hc⟩

/-- What holds in front of a character wherever it stands. -/
theorem forall_append_cons_iff {P : List α → Prop} {c d : α} :
    (∀ a b, c :: s = a ++ d :: b → P a) ↔
      (c = d → P []) ∧ ∀ a b, s = a ++ d :: b → P (c :: a) := by
  constructor
  · intro h
    refine ⟨?_, fun a b hs => h (c :: a) b (by rw [hs, List.cons_append])⟩
    rintro rfl
    exact h [] s rfl
  · rintro ⟨hfirst, hrest⟩ a b hs
    cases a with
    | nil => exact hfirst (List.cons.inj hs).1
    | cons e a =>
      obtain ⟨rfl, htail⟩ := List.cons.inj hs
      exact hrest a b htail

end Salvage.Text
