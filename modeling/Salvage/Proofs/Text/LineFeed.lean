import Salvage.Text.Line
import Salvage.Proofs.Text.Blank
import Salvage.Proofs.Text.Word

/-! # Line feeds and other blanks

Where other blanks stand for the line feeds of a text, skipping blanks and trimming leave the
same of it, and a word is found in the same places. Two words with a space between them are
found where they stand like that. In place of a line feed they find their space just if that is
the one blank there.
-/

namespace Salvage.Text

/-- The text with `e` in place of each line feed. -/
def breakLines (e s : List Char) : List Char := s.flatMap fun c => if c = '\n' then e else [c]

variable {e k s t v w : List Char} {c : Char} {p : Char → Bool}

@[simp] theorem breakLines_nil (e : List Char) : breakLines e [] = [] := rfl

@[simp] theorem breakLines_lineFeed (e s : List Char) :
    breakLines e ('\n' :: s) = e ++ breakLines e s := by
  simp [breakLines]

theorem breakLines_cons (hc : c ≠ '\n') (e s : List Char) :
    breakLines e (c :: s) = c :: breakLines e s := by
  simp [breakLines, hc]

/-- Induction over a text that tells its line feeds from other characters. -/
@[elab_as_elim]
theorem lineFeed_induction {motive : List Char → Prop} (nil : motive [])
    (feed : ∀ s, motive s → motive ('\n' :: s))
    (cons : ∀ c s, c ≠ '\n' → motive s → motive (c :: s)) (s : List Char) : motive s := by
  induction s with
  | nil => exact nil
  | cons c s ih =>
    by_cases hc : c = '\n'
    · exact hc ▸ feed s ih
    · exact cons c s hc ih

theorem mem_breakLines (h : c ∈ breakLines e s) : c ∈ s ∨ c ∈ e := by
  obtain ⟨d, hd, hc⟩ := List.mem_flatMap.mp h
  split at hc
  · exact .inr hc
  · exact .inl (List.mem_singleton.mp hc ▸ hd)

theorem breakLines_self (s : List Char) : breakLines ['\n'] s = s := by
  have hself : (fun c => if c = '\n' then ['\n'] else [c]) = ([·] : Char → List Char) := by
    funext c
    split
    · rename_i hc
      rw [hc]
    · rfl
  rw [breakLines, hself, List.flatMap_singleton']

theorem reverse_breakLines (e s : List Char) :
    (breakLines e s).reverse = breakLines e.reverse s.reverse := by
  rw [breakLines, List.reverse_flatMap, breakLines]
  congr 1
  funext c
  simp only [Function.comp]
  split <;> rfl

theorem joinLines_breakLines (h : '\r' ∉ s) (e : List Char) :
    joinLines (breakLines e s) = breakLines (joinLines e) s := by
  induction s using lineFeed_induction with
  | nil => rfl
  | feed s ih =>
    rw [breakLines_lineFeed, breakLines_lineFeed, ← ih (List.not_mem_of_not_mem_cons h)]
    exact List.map_append
  | cons c s hc ih =>
    have hbreak : isLineBreak c = false := by
      simp [isLineBreak, hc, (List.ne_of_not_mem_cons h).symm]
    rw [breakLines_cons hc, breakLines_cons hc, ← ih (List.not_mem_of_not_mem_cons h)]
    simp [joinLines, hbreak]

/-! ## Runs -/

/-- A run that blanks end is the same, and what follows it is broken in lines as before. -/
theorem takeWhile_breakLines (he : Blanks e) (hne : e ≠ [])
    (hp : ∀ c, p c = true → isBlank c = false) (s : List Char) :
    (breakLines e s).takeWhile p = s.takeWhile p ∧
      (breakLines e s).dropWhile p = breakLines e (s.dropWhile p) := by
  have hblank : ∀ c, isBlank c = true → p c = false := fun c hc => by
    cases h : p c with
    | false => rfl
    | true => simp [hp c h] at hc
  induction s using lineFeed_induction with
  | nil => exact ⟨rfl, rfl⟩
  | feed s ih =>
    have hhead : ∀ d ∈ (e ++ breakLines e s).head?, p d = false := by
      obtain ⟨d, e, rfl⟩ := List.exists_cons_of_ne_nil hne
      rintro x ⟨⟩
      exact hblank d (he d List.mem_cons_self)
    have hfeed : p '\n' = false := hblank '\n' (by decide)
    rw [List.takeWhile_cons_of_neg (by simp [hfeed]), List.dropWhile_cons_of_neg (by simp [hfeed]),
      breakLines_lineFeed]
    exact ⟨takeWhile_eq_nil_of_head? hhead, dropWhile_eq_self_of_head? hhead⟩
  | cons c s hc ih =>
    obtain ⟨htake, hdrop⟩ := ih
    rw [breakLines_cons hc]
    by_cases hpc : p c = true
    · simp [hpc, htake, hdrop]
    · simp [hpc, breakLines_cons hc]

theorem skipBlanks_breakLines (he : Blanks e) (s : List Char) :
    skipBlanks (breakLines e s) = breakLines e (skipBlanks s) := by
  simp only [skipBlanks]
  induction s using lineFeed_induction with
  | nil => rfl
  | feed s ih =>
    rw [breakLines_lineFeed, List.dropWhile_append_of_pos he, ih,
      List.dropWhile_cons_of_pos (by decide)]
  | cons c s hc ih =>
    rw [breakLines_cons hc]
    by_cases hblank : isBlank c = true
    · simp [hblank, ih]
    · simp [hblank, breakLines_cons hc]

theorem trim_breakLines (he : Blanks e) (s : List Char) :
    trim (breakLines e s) = breakLines e (trim s) := by
  have hrev : Blanks e.reverse := fun c hc => he c (List.mem_reverse.mp hc)
  have hdrop := skipBlanks_breakLines hrev s.reverse
  simp only [skipBlanks] at hdrop
  rw [trim, reverse_breakLines, hdrop, reverse_breakLines, List.reverse_reverse,
    skipBlanks_breakLines he, trim]

/-! ## Readers and matches -/

/-- The reader leaves the same of a text with other blanks in place of its line feeds. -/
def ReadsLines (e : List Char) (f : List Char → Option (List Char)) : Prop :=
  ∀ s, f (breakLines e s) = (f s).map (breakLines e)

namespace ReadsLines

variable {f g : List Char → Option (List Char)}

theorem bind (hf : ReadsLines e f) (hg : ReadsLines e g) :
    ReadsLines e fun s => (f s).bind g := by
  intro s
  simp only [hf s]
  cases f s with
  | none => rfl
  | some t => exact hg t

/-- A reader that may also take nothing. -/
theorem getD (hf : ReadsLines e f) : ReadsLines e fun s => some ((f s).getD s) := by
  intro s
  simp only [hf s]
  cases f s <;> rfl

end ReadsLines

section

variable {close : List Char → Option (List Char)}

/-- A stretch that begins with blanks goes on behind them if it is not closed there. -/
theorem upTo_blanks (hclose : ∀ c t, isBlank c = true → close (c :: t) = none) (he : Blanks e)
    (ht : close t = none) :
    upTo close (e ++ t) = (upTo close t).map fun x => (e ++ x.1, x.2) := by
  induction e with
  | nil => simp
  | cons c e ih =>
    obtain ⟨-, he⟩ := List.forall_mem_cons.mp he
    have hnone : close (e ++ t) = none := by
      cases e with
      | nil => exact ht
      | cons d e => exact hclose d _ (he d List.mem_cons_self)
    rw [List.cons_append, upTo_cons hnone, ih he, extend, Option.map_map]
    rfl

/-- A stretch ends at the same place, and so does what closes it. -/
theorem upTo_breakLines (hclose : ∀ c t, isBlank c = true → close (c :: t) = none)
    (hread : ReadsLines e close) (he : Blanks e) (hne : e ≠ []) (s : List Char) :
    upTo close (breakLines e s) =
      (upTo close s).map fun x => (breakLines e x.1, breakLines e x.2) := by
  induction s using lineFeed_induction with
  | nil => rfl
  | feed s ih =>
    have hs := hread s
    rw [breakLines_lineFeed]
    cases h : close s with
    | some r =>
      rw [h, Option.map_some] at hs
      obtain ⟨b, e, rfl⟩ := List.exists_cons_of_ne_nil hne
      rw [upTo_cons_of_close h, List.cons_append, upTo_append hs fun u hu hsuffix => ?_]
      · simp
      · obtain ⟨d, u, rfl⟩ := List.exists_cons_of_ne_nil hu
        exact hclose d _ (he d (List.mem_cons_of_mem b (hsuffix.subset List.mem_cons_self)))
    | none =>
      rw [h, Option.map_none] at hs
      rw [upTo_cons h, upTo_blanks hclose he hs, ih, extend, Option.map_map, Option.map_map]
      rfl
  | cons c s hc ih =>
    have hs := hread s
    rw [breakLines_cons hc]
    cases h : close s with
    | some r =>
      rw [h, Option.map_some] at hs
      rw [upTo_cons_of_close h, upTo_cons_of_close hs, Option.map_some, breakLines_cons hc,
        breakLines_nil]
    | none =>
      rw [h, Option.map_none] at hs
      rw [upTo_cons h, upTo_cons hs, ih, extend, extend, Option.map_map, Option.map_map]
      congr 1
      funext x
      simp only [Function.comp, breakLines_cons hc]

/-- Matches that no blank begins are found in the same places. -/
theorem Pattern.findAll_breakLines {α : Type} {q : Pattern α} {f : α → α}
    (hblank : ∀ c t, isBlank c = true → q.run (c :: t) = none)
    (hrun : ∀ s, q.run (breakLines e s) = (q.run s).map fun x => (f x.1, breakLines e x.2))
    (he : Blanks e) (s : List Char) : q.findAll (breakLines e s) = (q.findAll s).map f := by
  induction hn : s.length using Nat.strong_induction_on generalizing s with
  | h n ih =>
    subst hn
    have hs := hrun s
    cases h : q.run s with
    | some x =>
      obtain ⟨a, r⟩ := x
      rw [h] at hs
      rw [q.findAll_of_run_eq_some h, q.findAll_of_run_eq_some hs, ih _ (q.shorter h) r rfl,
        List.map_cons]
    | none =>
      rw [h] at hs
      cases s with
      | nil => simp [breakLines_nil, q.findAll_nil]
      | cons c s =>
        have ih := ih _ (Nat.lt_succ_self _) s rfl
        rw [q.findAll_cons h]
        by_cases hc : c = '\n'
        · rw [hc, breakLines_lineFeed,
            q.findAll_append_of_run_eq_none fun d hd t => hblank d t (he d hd), ih]
        · rw [breakLines_cons hc] at hs ⊢
          rw [q.findAll_cons hs, ih]

end

/-! ## Words -/

/-- A word has characters and no blank among them. -/
def Solid (w : List Char) : Prop := w ≠ [] ∧ ∀ c ∈ w, isBlank c = false

instance (w : List Char) : Decidable (Solid w) :=
  decidable_of_iff (w ≠ [] ∧ w.all (!isBlank ·) = true) (by simp [Solid])

theorem Solid.exists_head? (hw : Solid w) : ∃ c, w.head? = some c ∧ isBlank c = false :=
  ⟨_, List.head?_eq_some_head hw.1, hw.2 _ (List.head_mem hw.1)⟩

theorem Solid.exists_head?_append (hw : Solid w) (t : List Char) :
    ∃ c, (w ++ t).head? = some c ∧ isBlank c = false := by
  obtain ⟨c, hc, hblank⟩ := hw.exists_head?
  exact ⟨c, by simp [hc], hblank⟩

theorem lower_breakLines (e s : List Char) :
    lower (breakLines e s) = breakLines (lower e) (lower s) := by
  induction s using lineFeed_induction with
  | nil => rfl
  | feed s ih =>
    rw [breakLines_lineFeed, lower_append, ih]
    exact (breakLines_lineFeed (lower e) (lower s)).symm
  | cons c s hc ih =>
    rw [breakLines_cons hc, lower_cons, lower_cons,
      breakLines_cons (mt (toLower_eq_iff (by decide)).mp hc), ih]

theorem prefix_breakLines_iff (he : Blanks e) (hne : e ≠ []) (hw : ∀ c ∈ w, isBlank c = false)
    (s : List Char) : w <+: breakLines e s ↔ w <+: s := by
  induction w generalizing s with
  | nil => simp
  | cons a w ih =>
    obtain ⟨ha, hw⟩ := List.forall_mem_cons.mp hw
    have hnot {u : List Char} {b : Char} (hb : isBlank b = true) (t : List Char) :
        ¬a :: u <+: b :: t := not_prefix_of_isBlank ⟨a, List.head?_cons, ha⟩ hb t
    cases s using lineFeed_induction with
    | nil => rfl
    | feed s =>
      obtain ⟨b, e, rfl⟩ := List.exists_cons_of_ne_nil hne
      rw [breakLines_lineFeed, List.cons_append]
      exact iff_of_false (hnot (he b List.mem_cons_self) _) (hnot (by decide) _)
    | cons c s hc =>
      rw [breakLines_cons hc, List.cons_prefix_cons, List.cons_prefix_cons, ih hw]

/-- A space in front of a word is one of the text, or the only one in place of a line feed. -/
theorem space_cons_prefix_breakLines_iff (he : Blanks e) (hw : Solid w) (s : List Char) :
    ' ' :: w <+: breakLines (' ' :: e) s ↔ ' ' :: w <+: s ∨ e = [] ∧ '\n' :: w <+: s := by
  have hplain := prefix_breakLines_iff he.space_cons (List.cons_ne_nil ' ' e) hw.2
  cases s using lineFeed_induction with
  | nil => simp
  | feed s =>
    have hrest : w <+: e ++ breakLines (' ' :: e) s ↔ e = [] ∧ w <+: s := by
      cases e with
      | nil => simp [hplain]
      | cons b e =>
        have hnot := not_prefix_of_isBlank hw.exists_head? (he b List.mem_cons_self)
        exact iff_of_false (hnot _) (by simp)
    rw [breakLines_lineFeed]
    simp [List.cons_prefix_cons, hrest]
  | cons c s hc =>
    rw [breakLines_cons hc]
    simp [List.cons_prefix_cons, hplain, Ne.symm hc]

theorem space_prefix_breakLines_iff (he : Blanks e) (hv : ∀ c ∈ v, isBlank c = false)
    (hw : Solid w) (s : List Char) :
    v ++ ' ' :: w <+: breakLines (' ' :: e) s ↔
      v ++ ' ' :: w <+: s ∨ e = [] ∧ v ++ '\n' :: w <+: s := by
  induction v generalizing s with
  | nil => exact space_cons_prefix_breakLines_iff he hw s
  | cons a v ih =>
    obtain ⟨ha, hv⟩ := List.forall_mem_cons.mp hv
    have hnot {u : List Char} {b : Char} (hb : isBlank b = true) (t : List Char) :
        ¬a :: u <+: b :: t := not_prefix_of_isBlank ⟨a, List.head?_cons, ha⟩ hb t
    cases s using lineFeed_induction with
    | nil => simp
    | feed s =>
      rw [breakLines_lineFeed]
      exact iff_of_false (hnot (by decide) _)
        (not_or.mpr ⟨hnot (by decide) _, fun h => hnot (by decide) _ h.2⟩)
    | cons c s hc =>
      rw [breakLines_cons hc, List.cons_append, List.cons_append, List.cons_prefix_cons,
        List.cons_prefix_cons, List.cons_prefix_cons, ih hv, and_or_left, and_left_comm]

/-- A text that begins with no blank is not found within blanks. -/
theorem infix_append_blanks_iff (he : Blanks e) (hk : ∃ c, k.head? = some c ∧ isBlank c = false)
    (s : List Char) : k <:+: e ++ s ↔ k <:+: s := by
  induction e with
  | nil => rfl
  | cons b e ih =>
    obtain ⟨hb, he⟩ := List.forall_mem_cons.mp he
    rw [List.cons_append, List.infix_cons_iff, ih he, or_iff_right (not_prefix_of_isBlank hk hb _)]

theorem infix_breakLines_iff (he : Blanks e) (hne : e ≠ []) (hw : Solid w) (s : List Char) :
    w <:+: breakLines e s ↔ w <:+: s := by
  induction s using lineFeed_induction with
  | nil => rfl
  | feed s ih =>
    rw [breakLines_lineFeed, infix_append_blanks_iff he hw.exists_head?, ih, List.infix_cons_iff,
      or_iff_right (not_prefix_of_isBlank hw.exists_head? (by decide) s)]
  | cons c s hc ih =>
    have hprefix := prefix_breakLines_iff he hne hw.2 (c :: s)
    rw [breakLines_cons hc] at hprefix ⊢
    rw [List.infix_cons_iff, List.infix_cons_iff, hprefix, ih]

theorem space_infix_breakLines_iff (he : Blanks e) (hv : Solid v) (hw : Solid w) (s : List Char) :
    v ++ ' ' :: w <:+: breakLines (' ' :: e) s ↔
      v ++ ' ' :: w <:+: s ∨ e = [] ∧ v ++ '\n' :: w <:+: s := by
  induction s using lineFeed_induction with
  | nil => simp
  | feed s ih =>
    have hhead {u} := not_prefix_of_isBlank (hv.exists_head?_append u) (c := '\n') (by decide) s
    rw [breakLines_lineFeed, infix_append_blanks_iff he.space_cons (hv.exists_head?_append _), ih,
      List.infix_cons_iff, List.infix_cons_iff, or_iff_right hhead, or_iff_right hhead]
  | cons c s hc ih =>
    have hprefix := space_prefix_breakLines_iff he hv.2 hw (c :: s)
    rw [breakLines_cons hc] at hprefix ⊢
    rw [List.infix_cons_iff, hprefix, ih, List.infix_cons_iff, List.infix_cons_iff, and_or_left,
      or_or_or_comm]

theorem Blanks.lower (he : Blanks e) : Blanks (lower e) := by
  intro c hc
  obtain ⟨b, hb, rfl⟩ := List.mem_map.mp hc
  exact isBlank_toLower (he b hb)

theorem lower_ne_nil (hne : e ≠ []) : lower e ≠ [] := mt List.map_eq_nil_iff.mp hne

theorem startsWithWord_breakLines (he : Blanks e) (hne : e ≠ []) (hw : Solid (lower w))
    (s : List Char) : startsWithWord (breakLines e s) w = startsWithWord s w := by
  rw [Bool.eq_iff_iff, startsWithWord_iff, startsWithWord_iff, lower_breakLines,
    prefix_breakLines_iff he.lower (lower_ne_nil hne) hw.2]

theorem containsWord_breakLines (he : Blanks e) (hne : e ≠ []) (hw : Solid (lower w))
    (s : List Char) : containsWord (breakLines e s) w = containsWord s w := by
  rw [Bool.eq_iff_iff, containsWord_iff, containsWord_iff, lower_breakLines,
    infix_breakLines_iff he.lower (lower_ne_nil hne) hw]

/-- The two words with a character between them. -/
def joined (v w : List Char) (c : Char) : List Char := v ++ c :: w

theorem lower_joined (hc : c.toLower = c) (v w : List Char) :
    lower (joined v w c) = lower v ++ c :: lower w := by
  rw [joined, lower_append, lower_cons, hc]

theorem startsWithWord_joined_breakLines (he : Blanks e) (hv : Solid (lower v))
    (hw : Solid (lower w)) (s : List Char) :
    startsWithWord (breakLines (' ' :: e) s) (joined v w ' ') = true ↔
      startsWithWord s (joined v w ' ') = true ∨
        e = [] ∧ startsWithWord s (joined v w '\n') = true := by
  have hlower : lower (' ' :: e) = ' ' :: lower e := rfl
  have hnil : lower e = [] ↔ e = [] := List.map_eq_nil_iff
  rw [startsWithWord_iff, startsWithWord_iff, startsWithWord_iff, lower_breakLines, hlower,
    lower_joined rfl, lower_joined rfl, space_prefix_breakLines_iff he.lower hv.2 hw, hnil]

theorem containsWord_joined_breakLines (he : Blanks e) (hv : Solid (lower v))
    (hw : Solid (lower w)) (s : List Char) :
    containsWord (breakLines (' ' :: e) s) (joined v w ' ') = true ↔
      containsWord s (joined v w ' ') = true ∨
        e = [] ∧ containsWord s (joined v w '\n') = true := by
  have hlower : lower (' ' :: e) = ' ' :: lower e := rfl
  have hnil : lower e = [] ↔ e = [] := List.map_eq_nil_iff
  rw [containsWord_iff, containsWord_iff, containsWord_iff, lower_breakLines, hlower,
    lower_joined rfl, lower_joined rfl, space_infix_breakLines_iff he.lower hv hw, hnil]

end Salvage.Text
