import Mathlib.Data.List.TakeWhile
import Salvage.Json.Numeral
import Salvage.Proofs.Text.Run

/-! # What a numeral takes

A numeral is taken from the front of a text up to the first character that does not
continue it. Nothing of the rest but that character has a part in what is read.
-/

namespace Salvage.Json

open Text

def isNumeralChar (c : Char) : Bool :=
  c.isDigit || c == '-' || c == '+' || c == '.' || isExponentMark c

/-- What `run` makes of `s` is what `next` makes of `rest`, and is so for every other rest
that begins with the same character. -/
def Takes {β : Type} (run next : List Char → β) (s rest : List Char) : Prop :=
  ∃ w, s = w ++ rest ∧ (∀ c ∈ w, isNumeralChar c = true) ∧
    ∀ t, t.head? = rest.head? → run (w ++ t) = next t

namespace Takes

variable {β γ : Type} {run mid next : List Char → β} {s t rest : List Char} {c : Char}

theorem refl (h : ∀ t, t.head? = s.head? → run t = next t) : Takes run next s s :=
  ⟨[], rfl, by simp, h⟩

theorem nil (h : run [] = next []) : Takes run next [] [] :=
  refl fun t ht => by
    obtain rfl : t = [] := by simpa using ht
    exact h

theorem stop (h : ∀ t, run (c :: t) = next (c :: t)) : Takes run next (c :: s) (c :: s) :=
  refl fun t ht => by
    obtain ⟨u, rfl⟩ : ∃ u, t = c :: u := by cases t <;> simp_all
    exact h u

theorem head?_append (h : t.head? = rest.head?) (w : List Char) :
    (w ++ t).head? = (w ++ rest).head? := by
  rw [List.head?_append, List.head?_append, h]

theorem cons (hc : isNumeralChar c = true)
    (hrun : ∀ t, t.head? = s.head? → run (c :: t) = mid t) (h : Takes mid next s rest) :
    Takes run next (c :: s) rest := by
  obtain ⟨w, rfl, hw, hmid⟩ := h
  refine ⟨c :: w, rfl, ?_, fun t ht => ?_⟩
  · simpa [hc] using hw
  · rw [List.cons_append, hrun _ (head?_append ht w), hmid t ht]

/-- Only what `run` makes of texts that begin like this one counts. -/
theorem congr_cons (hrun : ∀ t, run (c :: t) = mid (c :: t)) (h : Takes mid next (c :: s) rest) :
    Takes run next (c :: s) rest := by
  obtain ⟨w, hs, hw, hmid⟩ := h
  refine ⟨w, hs, hw, fun t ht => ?_⟩
  have hhead := head?_append ht w
  rw [← hs] at hhead
  rw [← hmid t ht]
  cases hu : w ++ t with
  | nil => simp [hu] at hhead
  | cons a u =>
    obtain rfl : a = c := by simpa [hu] using hhead
    exact hrun u

theorem trans (h₁ : Takes run mid s t) (h₂ : Takes mid next t rest) : Takes run next s rest := by
  obtain ⟨v, rfl, hv, hrun⟩ := h₁
  obtain ⟨w, rfl, hw, hmid⟩ := h₂
  refine ⟨v ++ w, (List.append_assoc ..).symm, ?_, fun t ht => ?_⟩
  · intro c hc
    rcases List.mem_append.mp hc with hc | hc
    · exact hv c hc
    · exact hw c hc
  · rw [List.append_assoc, hrun _ (head?_append ht w), hmid t ht]

theorem map (f : β → γ) (h : Takes run next s rest) :
    Takes (fun t => f (run t)) (fun t => f (next t)) s rest := by
  obtain ⟨w, rfl, hw, hrun⟩ := h
  exact ⟨w, rfl, hw, fun t ht => congrArg f (hrun t ht)⟩

end Takes

theorem isNumeralChar_of_isDigit {c : Char} (h : c.isDigit = true) : isNumeralChar c = true := by
  simp [isNumeralChar, h]

/-- A run of digits ends at a character that is no digit. -/
theorem takes_digits (s : List Char) :
    Takes (fun t => ((t.takeWhile Char.isDigit).length, t.dropWhile Char.isDigit))
      (fun t => ((s.takeWhile Char.isDigit).length, t)) s (s.dropWhile Char.isDigit) := by
  refine ⟨s.takeWhile Char.isDigit, List.takeWhile_append_dropWhile.symm, ?_, fun t ht => ?_⟩
  · intro c hc
    exact isNumeralChar_of_isDigit (List.mem_takeWhile_imp hc)
  · have hdigits : ∀ c ∈ s.takeWhile Char.isDigit, c.isDigit = true :=
      fun c hc => List.mem_takeWhile_imp hc
    have hend : ∀ c ∈ t.head?, c.isDigit = false := by
      rw [ht]
      exact head?_dropWhile s
    simp only [takeWhile_append_of_head? hdigits hend, dropWhile_append_of_head? hdigits hend]

theorem takes_integerPart (n : Nat) (s : List Char) :
    Takes (integerPart n) (fun t => ((integerPart n s).1, t)) s (integerPart n s).2 := by
  fun_induction integerPart n s with
  | case1 n => exact .nil rfl
  | case2 n c r hc hn ih =>
    exact .cons (isNumeralChar_of_isDigit hc) (fun t _ => by simp [integerPart, hc, hn]) ih
  | case3 n c r hc hn =>
    refine .cons (isNumeralChar_of_isDigit hc) (fun t _ => ?_)
      ((takes_digits r).map fun x => (Decimal.mk n (1 + x.1), x.2))
    simp [integerPart, hc, hn]
  | case4 n c r hc => exact .stop fun t => by simp [integerPart, hc]

theorem takes_fractionPart (x : Decimal) (s : List Char) :
    Takes (fractionPart x) (fun t => ((fractionPart x s).1, t)) s (fractionPart x s).2 := by
  fun_induction fractionPart x s with
  | case1 x => exact .nil rfl
  | case2 x c r hc hx ih =>
    exact .cons (isNumeralChar_of_isDigit hc) (fun t _ => by simp [fractionPart, hc, hx]) ih
  | case3 x c r hc hx =>
    refine .cons (isNumeralChar_of_isDigit hc) (fun t _ => ?_)
      ((takes_digits r).map fun y => (x, y.2))
    simp [fractionPart, hc, hx]
  | case4 x c r hc => exact .stop fun t => by simp [fractionPart, hc]

section

variable {negative : Bool} {x : Decimal} {s r : List Char} {n : Number}

/-- The reader takes what is in front of `r`, as part of a number. -/
def TakesNumber (run : List Char → Reading) (n : Number) (s r : List Char) : Prop :=
  Takes run (fun t => .ok (n, t)) s r

theorem floatReading_any_rest (h : floatReading negative x s = .ok (n, r)) (t : List Char) :
    floatReading negative x t = .ok (n, t) := by
  unfold floatReading at h ⊢
  cases hy : collected? negative x <;> simp_all

theorem integerReading_any_rest (h : integerReading negative x s = .ok (n, r)) (t : List Char) :
    integerReading negative x t = .ok (n, t) := by
  unfold integerReading at h ⊢
  split at h
  · rw [if_pos ‹_›]
    exact floatReading_any_rest h t
  · rw [if_neg ‹_›]
    split at h
    · simp_all
    · split at h
      · simp_all
      · rw [if_neg ‹_›, if_neg ‹_›]
        exact floatReading_any_rest h t

theorem takes_exponentDigits {down grows : Bool} {k : Nat}
    (h : exponentDigits negative x down grows k s = .ok (n, r)) :
    TakesNumber (exponentDigits negative x down grows k) n s r := by
  fun_induction exponentDigits negative x down grows k s with
  | case1 k =>
    obtain rfl := floatReading_rest h
    exact .nil h
  | case2 k c t hc hk ih =>
    exact .cons (isNumeralChar_of_isDigit hc) (fun u _ => by simp [exponentDigits, hc, hk]) (ih h)
  | case3 => simp at h
  | case4 k c t hc hk hg =>
    obtain ⟨rfl, rfl⟩ := Prod.mk.inj (Except.ok.inj h)
    refine .cons (isNumeralChar_of_isDigit hc) (fun u _ => ?_)
      ((takes_digits t).map fun y => (.ok (.float (.zero negative), y.2) : Reading))
    simp [exponentDigits, hc, hk, hg]
  | case5 k c t hc =>
    obtain rfl := floatReading_rest h
    apply Takes.stop
    intro u
    rw [exponentDigits, if_neg hc]
    exact floatReading_any_rest h (c :: u)

theorem takes_takeSign (s : List Char) :
    Takes takeSign (fun t => ((takeSign s).1, t)) s (takeSign s).2 := by
  fun_cases takeSign s with
  | case1 t => exact .cons rfl (fun _ _ => rfl) (.refl fun _ _ => rfl)
  | case2 t => exact .cons rfl (fun _ _ => rfl) (.refl fun _ _ => rfl)
  | case3 hplus hminus =>
    cases s with
    | nil => exact .nil rfl
    | cons c s =>
      apply Takes.stop
      intro t
      rw [takeSign.eq_def]
      split <;> simp_all

theorem takes_exponentPart (h : exponentPart negative x s = .ok (n, r)) :
    TakesNumber (exponentPart negative x) n s r := by
  have hsign := takes_takeSign s
  unfold exponentPart at h
  generalize takeSign s = y at h hsign
  obtain ⟨down, _ | ⟨c, t⟩⟩ := y
  · simp at h
  · simp only at h
    split at h
    · rename_i hc
      obtain ⟨v, rfl, hv, hsign⟩ := hsign
      obtain ⟨w, rfl, hw, hdigits⟩ := takes_exponentDigits h
      refine ⟨v ++ c :: w, by simp, ?_, fun u hu => ?_⟩
      · simp only [List.mem_append, List.mem_cons]
        rintro a (ha | rfl | ha)
        · exact hv a ha
        · exact isNumeralChar_of_isDigit hc
        · exact hw a ha
      · have hsplit : takeSign (v ++ c :: (w ++ u)) = (down, c :: (w ++ u)) := hsign _ rfl
        rw [List.append_assoc, List.cons_append, exponentPart, hsplit]
        simp only [hc, if_true]
        exact hdigits u hu
    · simp at h

theorem isNumeralChar_of_isExponentMark {c : Char} (h : isExponentMark c = true) :
    isNumeralChar c = true := by
  simp [isNumeralChar, h]

theorem takes_exponentOrEnd (h : exponentOrEnd negative x s = .ok (n, r)) :
    TakesNumber (exponentOrEnd negative x) n s r := by
  cases s with
  | nil =>
    obtain rfl := floatReading_rest h
    exact .nil h
  | cons c t =>
    simp only [exponentOrEnd] at h
    split at h
    · rename_i hc
      exact .cons (isNumeralChar_of_isExponentMark hc) (fun u _ => by rw [exponentOrEnd, if_pos hc])
        (takes_exponentPart h)
    · rename_i hc
      obtain rfl := floatReading_rest h
      apply Takes.stop
      intro u
      rw [exponentOrEnd, if_neg hc]
      exact floatReading_any_rest h (c :: u)

theorem takes_fraction (h : fraction negative x s = .ok (n, r)) :
    TakesNumber (fraction negative x) n s r := by
  cases s with
  | nil => simp [fraction] at h
  | cons c t =>
    simp only [fraction] at h
    split at h
    · rename_i hc
      have hpart := ((takes_fractionPart x (c :: t)).map
        fun y : Decimal × List Char => exponentOrEnd negative y.1 y.2).trans
          (takes_exponentOrEnd h)
      exact hpart.congr_cons fun u => by rw [fraction, if_pos hc]
    · simp at h

theorem takes_afterInteger (h : afterInteger negative x s = .ok (n, r)) :
    TakesNumber (afterInteger negative x) n s r := by
  cases s with
  | nil =>
    obtain rfl := integerReading_rest h
    exact .nil h
  | cons c t =>
    simp only [afterInteger] at h
    split at h
    · rename_i hc
      obtain rfl := hc
      exact .cons rfl (fun _ _ => rfl) (takes_fraction h)
    · rename_i hpoint
      split at h
      · rename_i hc
        exact .cons (isNumeralChar_of_isExponentMark hc)
          (fun u _ => by rw [afterInteger, if_neg hpoint, if_pos hc]) (takes_exponentPart h)
      · rename_i hc
        obtain rfl := integerReading_rest h
        apply Takes.stop
        intro u
        rw [afterInteger, if_neg hpoint, if_neg hc]
        exact integerReading_any_rest h (c :: u)

theorem numeral_zero (hs : ∀ c ∈ s.head?, c.isDigit = false) :
    numeral negative ('0' :: s) = afterInteger negative ⟨0, 0⟩ s := by
  cases s with
  | nil => rfl
  | cons c t => simp [numeral, hs c rfl]

theorem takes_numeral (h : numeral negative s = .ok (n, r)) :
    TakesNumber (numeral negative) n s r := by
  cases s with
  | nil => simp [numeral] at h
  | cons c t =>
    by_cases hzero : c = '0'
    · subst hzero
      have hhead : ∀ c ∈ t.head?, c.isDigit = false := by
        cases t with
        | nil => simp
        | cons d u =>
          intro c hc
          obtain rfl : d = c := Option.some.inj hc
          cases hd : d.isDigit with
          | true => simp [numeral, hd] at h
          | false => rfl
      rw [numeral_zero hhead] at h
      refine .cons rfl (fun u hu => numeral_zero ?_) (takes_afterInteger h)
      rwa [hu]
    · simp only [numeral, if_neg hzero] at h
      split at h
      · rename_i hc
        have hpart := ((takes_integerPart (digitValue c) t).map
          fun y : Decimal × List Char => afterInteger negative y.1 y.2).trans
            (takes_afterInteger h)
        exact hpart.cons (isNumeralChar_of_isDigit hc) fun u _ => by
          simp only [numeral, if_neg hzero, if_pos hc]
      · simp at h

end

end Salvage.Json
