import Mathlib.Data.List.TakeWhile
import Salvage.Text.Blank
import Salvage.Proofs.Text.Run

/-! # Blanks around a text

There are few blanks, so a fact about all of them is one about a list. What trimming leaves
of a text is known where the text has a part without blanks at its ends.
-/

namespace Salvage.Text

variable {a b g k s t w : List Char} {c : Char}

/-- A run of blanks, which may be empty. -/
def Blanks (w : List Char) : Prop := ∀ c ∈ w, isBlank c = true

def blankChars : List Char :=
  blankRanges.flatMap fun (first, last) => (List.range' first (last + 1 - first)).map Char.ofNat

theorem mem_blankChars (h : isBlank c = true) : c ∈ blankChars := by
  obtain ⟨⟨first, last⟩, hrange, hfirst, hlast⟩ := inRanges_iff.mp h
  refine List.mem_flatMap.mpr ⟨(first, last), hrange, List.mem_map.mpr ⟨c.toNat, ?_, ?_⟩⟩
  · rw [List.mem_range'_1]
    simp only at hfirst hlast
    omega
  · rw [Char.ofNat_toNat]

/-- What holds of each of the listed blanks holds of every blank. -/
theorem of_isBlank {p : Char → Bool} (h : blankChars.all p = true) (hc : isBlank c = true) :
    p c = true :=
  List.all_eq_true.mp h c (mem_blankChars hc)

theorem Blanks.notMem (hw : Blanks w) (hc : isBlank c = false) : c ∉ w := by
  intro h
  simp [hw c h] at hc

theorem Blanks.space_cons (hw : Blanks w) : Blanks (' ' :: w) :=
  List.forall_mem_cons.mpr ⟨by decide, hw⟩

theorem ne_of_isBlank {d : Char} (hc : isBlank c = true) (hd : isBlank d = false) : c ≠ d := by
  rintro rfl
  simp [hc] at hd

/-- A text that begins with no blank does not begin where a blank is. -/
theorem not_prefix_of_isBlank (hk : ∃ c, k.head? = some c ∧ isBlank c = false)
    (hc : isBlank c = true) (s : List Char) : ¬k <+: c :: s := by
  obtain ⟨d, hd, hblank⟩ := hk
  obtain ⟨k, rfl⟩ := List.head?_eq_some_iff.mp hd
  exact fun h => ne_of_isBlank hc hblank (List.cons_prefix_cons.mp h).1.symm

/-- The text begins and ends with a character that is no blank. -/
def Tight (k : List Char) : Prop :=
  (∃ c, k.head? = some c ∧ isBlank c = false) ∧ ∃ c, k.getLast? = some c ∧ isBlank c = false

theorem Tight.append (ha : Tight a) (hb : Tight b) (w : List Char) : Tight (a ++ (w ++ b)) := by
  obtain ⟨⟨c, hc, hblank⟩, -⟩ := ha
  obtain ⟨-, d, hd, hblank'⟩ := hb
  exact ⟨⟨c, by simp [hc], hblank⟩, d, by simp [hd], hblank'⟩

theorem tight_of_forall (hne : s ≠ []) (h : ∀ c ∈ s, isBlank c = false) : Tight s := by
  refine ⟨⟨s.head hne, List.head?_eq_some_head hne, h _ (List.head_mem hne)⟩, s.getLast hne, ?_, ?_⟩
  · exact List.getLast?_eq_some_getLast hne
  · exact h _ (List.getLast_mem hne)

theorem Tight.append_of_getLast? (ha : Tight a)
    (hb : b = [] ∨ ∃ c, b.getLast? = some c ∧ isBlank c = false) : Tight (a ++ b) := by
  rcases hb with rfl | ⟨d, hd, hblank⟩
  · rwa [List.append_nil]
  · obtain ⟨⟨c, hc, hblank'⟩, -⟩ := ha
    exact ⟨⟨c, by simp [hc], hblank'⟩, d, by simp [hd], hblank⟩

theorem dropEnd_append (hs : ∀ c ∈ s.getLast?, isBlank c = false) (t : List Char) :
    ((s ++ t).reverse.dropWhile isBlank).reverse = s ++ (t.reverse.dropWhile isBlank).reverse := by
  have hself : s.reverse.dropWhile isBlank = s.reverse :=
    dropWhile_eq_self_of_head? (by simpa using hs)
  rw [List.reverse_append, List.dropWhile_append, hself]
  split
  · rename_i hempty
    simp [List.isEmpty_iff.mp hempty]
  · simp

/-- Trimming keeps a part without blanks at its ends. -/
theorem trim_append (hg : Blanks g) (hk : Tight k) (t : List Char) :
    trim (g ++ (k ++ t)) = k ++ (t.reverse.dropWhile isBlank).reverse := by
  obtain ⟨⟨c, hc, hblank⟩, d, hd, hblank'⟩ := hk
  rw [trim, ← List.append_assoc, dropEnd_append (by simp [hd, hblank']), List.append_assoc]
  exact dropWhile_append_of_head? hg (by simp [hc, hblank])

theorem trim_append_blanks (hg : Blanks g) (hk : Tight k) (ht : Blanks t) :
    trim (g ++ (k ++ t)) = k := by
  have hnil : t.reverse.dropWhile isBlank = [] :=
    List.dropWhile_eq_nil_iff.mpr fun c hc => ht c (List.mem_reverse.mp hc)
  rw [trim_append hg hk, hnil, List.reverse_nil, List.append_nil]

theorem trim_of_tight (hk : Tight k) : trim k = k := by
  simpa using trim_append_blanks (g := []) (t := []) (by simp [Blanks]) hk (by simp [Blanks])

theorem tight_trim (h : trim s ≠ []) : Tight (trim s) := by
  refine ⟨⟨_, List.head?_eq_some_head h, head?_dropWhile _ _ (List.head?_eq_some_head h)⟩, ?_⟩
  obtain ⟨c, hc⟩ : ∃ c, (trim s).getLast? = some c := ⟨_, List.getLast?_eq_some_getLast h⟩
  refine ⟨c, hc, ?_⟩
  rw [trim, skipBlanks, getLast?_dropWhile h, List.getLast?_reverse] at hc
  exact head?_dropWhile _ c hc

theorem trim_trim (s : List Char) : trim (trim s) = trim s := by
  by_cases h : trim s = []
  · rw [h]
    rfl
  · exact trim_of_tight (tight_trim h)

theorem isInfix_trim (s : List Char) : trim s <:+: s := by
  have hfront : (s.reverse.dropWhile isBlank).reverse <+: s :=
    ⟨_, dropWhile_reverse_append isBlank s⟩
  exact (List.dropWhile_suffix isBlank).isInfix.trans hfront.isInfix

end Salvage.Text
