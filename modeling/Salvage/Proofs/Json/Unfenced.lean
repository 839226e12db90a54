import Mathlib.Data.List.DropRight
import Salvage.Proofs.Json.Prose

/-! # Reading without fences

A fence in the text of an object stands inside one of its strings. Where all fences are
erased the strings get shorter, and everything around them is read as before. So the text of
an object always yields something: its own value unless a fence stands in the way.
-/

namespace Salvage.Json

open Text

/-- The text with every fence erased. -/
def withoutFences (s : List Char) : List Char := fenceMarker.eraseAll s

variable {s t u r k w : List Char} {c : Char}

/-! ## What is erased -/

theorem isVerbatim_of_foldsTo {tag : List Char} (htag : tag ∈ fenceTags) {a : Char} (ha : a ∈ tag)
    (h : foldsTo a c = true) : IsVerbatim c := by
  have hletters : fenceTags.flatten.all (fun a =>
      foldsTo a '"' == false && foldsTo a '\\' == false &&
        (List.range 0x20).all fun n => foldsTo a (Char.ofNat n) == false) = true := by decide
  have hletter := List.all_eq_true.mp hletters a (List.mem_flatten.mpr ⟨tag, htag, ha⟩)
  simp only [Bool.and_eq_true, beq_iff_eq, List.all_eq_true, List.mem_range] at hletter
  obtain ⟨⟨hq, hb⟩, hcontrol⟩ := hletter
  refine ⟨?_, ?_, ?_⟩
  · rintro rfl
    simp [h] at hq
  · rintro rfl
    simp [h] at hb
  · apply Nat.not_lt.mp
    intro hc
    have hfolds := hcontrol c.toNat hc
    rw [Char.ofNat_toNat] at hfolds
    simp [h] at hfolds

theorem isVerbatim_of_mem_fence (hc : c ∈ fence) : IsVerbatim c := by
  obtain rfl : c = '\x60' := by simpa [fence] using hc
  exact ⟨by decide, by decide, by decide⟩

/-- A fence with its language is made of characters that stand for themselves. -/
theorem exists_of_fenceMarker (h : fenceMarker.run s = some ((), r)) :
    ∃ w, s = w ++ r ∧ ∀ c ∈ w, IsVerbatim c := by
  obtain ⟨t, ht, h⟩ := Option.bind_eq_some_iff.mp h
  obtain ⟨u, hu, h⟩ := Option.bind_eq_some_iff.mp h
  obtain rfl : u = r := (Prod.mk.inj (Option.some.inj h)).2
  obtain rfl := dropWord?_beq_eq_some_iff.mp ht
  have hu := List.mem_of_head? hu
  rcases List.mem_append.mp hu with hu | hu
  · obtain ⟨tag, htag, hdrop⟩ := List.mem_filterMap.mp hu
    obtain ⟨w, rfl, hw⟩ := exists_of_dropWord? hdrop
    refine ⟨fence ++ w, by simp, fun c hc => ?_⟩
    rcases List.mem_append.mp hc with hc | hc
    · exact isVerbatim_of_mem_fence hc
    · obtain ⟨a, ha, hsame⟩ := hw c hc
      exact isVerbatim_of_foldsTo htag ha hsame
  · obtain rfl := List.mem_singleton.mp hu
    exact ⟨fence, rfl, fun c hc => isVerbatim_of_mem_fence hc⟩

theorem fenceMarker_cons (hc : c ≠ '\x60') (s : List Char) : fenceMarker.run (c :: s) = none := by
  simp [fenceMarker, afterFence?_cons hc]

theorem withoutFences_nil : withoutFences [] = [] := Pattern.eraseAll_nil fenceMarker

theorem withoutFences_cons (hc : c ≠ '\x60') (s : List Char) :
    withoutFences (c :: s) = c :: withoutFences s :=
  Pattern.eraseAll_cons (fenceMarker_cons hc s)

theorem withoutFences_append (hw : '\x60' ∉ w) (s : List Char) :
    withoutFences (w ++ s) = w ++ withoutFences s := by
  induction w with
  | nil => rfl
  | cons c w ih =>
    have hc : c ≠ '\x60' := by
      rintro rfl
      exact hw List.mem_cons_self
    rw [List.cons_append, withoutFences_cons hc, ih fun h => hw (List.mem_cons_of_mem c h),
      List.cons_append]

theorem head?_withoutFences (h : s.head? ≠ some '\x60') : (withoutFences s).head? = s.head? := by
  cases s with
  | nil => rw [withoutFences_nil]
  | cons c s => rw [withoutFences_cons (by simpa using h), List.head?_cons, List.head?_cons]

/-! ## Spaces -/

theorem skipSpace_skipSpace (s : List Char) : skipSpace (skipSpace s) = skipSpace s :=
  List.dropWhile_idempotent isSpace s

theorem skipSpace_withoutFences (h : (skipSpace s).head? ≠ some '\x60') :
    skipSpace (withoutFences s) = withoutFences (skipSpace s) := by
  have hspace : ∀ c ∈ s.takeWhile isSpace, isSpace c = true :=
    fun c hc => List.mem_takeWhile_imp hc
  have hmem : '\x60' ∉ s.takeWhile isSpace := by
    intro h
    exact absurd (hspace _ h) (by decide)
  have hend : ∀ c ∈ (withoutFences (skipSpace s)).head?, isSpace c = false := by
    intro c hc
    rw [head?_withoutFences h] at hc
    exact head?_dropWhile s c hc
  have hsplit : s = s.takeWhile isSpace ++ skipSpace s := List.takeWhile_append_dropWhile.symm
  conv_lhs => rw [hsplit, withoutFences_append hmem]
  exact dropWhile_append_of_head? hspace hend

theorem skipSpace_withoutFences_cons (h : skipSpace s = c :: r) (hc : c ≠ '\x60') :
    skipSpace (withoutFences s) = c :: withoutFences r := by
  rw [skipSpace_withoutFences (by simpa [h] using hc), h, withoutFences_cons hc]

theorem head?_ne_of_skipSpace (h : skipSpace s = c :: r) (hc : c ≠ '\x60') :
    s.head? ≠ some '\x60' := by
  intro hs
  obtain ⟨t, rfl⟩ := List.head?_eq_some_iff.mp hs
  obtain ⟨rfl, -⟩ := List.cons.inj h
  exact hc rfl

/-! ## Strings -/

/-- A literal still closes where it did, with less in front of its quote. -/
theorem QuotedRead.unfenced (h : QuotedRead s k r) :
    ∃ k', QuotedRead (withoutFences s) k' (withoutFences r) := by
  -- A fence is erased at once, so the induction is on the length and not on the derivation.
  induction hn : s.length using Nat.strong_induction_on generalizing s k with
  | h n ih =>
    subst hn
    cases h with
    | close =>
      rw [withoutFences_cons (by decide)]
      exact ⟨[], .close _⟩
    | @escape s t _ k d hd h =>
      obtain ⟨c, w, rfl, hc, hw, hread⟩ := exists_of_escape hd
      have hmem : '\x60' ∉ '\\' :: c :: w := by
        have hletter : c ≠ '\x60' := by
          rintro rfl
          revert hc
          decide
        simp [hletter.symm, hw.notMem (c := '\x60') (by decide) (by decide) (by decide)]
      obtain ⟨k', hk⟩ := ih t.length (by simp; omega) h rfl
      have hsplit : withoutFences ('\\' :: c :: (w ++ t)) = '\\' :: c :: (w ++ withoutFences t) :=
        withoutFences_append hmem t
      rw [hsplit]
      exact ⟨d :: k', .escape (hread _) hk⟩
    | @verbatim c s _ k hc h =>
      cases hrun : fenceMarker.run (c :: s) with
      | none =>
        obtain ⟨k', hk⟩ := ih s.length (by simp) h rfl
        rw [withoutFences, Pattern.eraseAll_cons hrun]
        exact ⟨c :: k', .verbatim hc hk⟩
      | some x =>
        obtain ⟨w, hs, hw⟩ := exists_of_fenceMarker hrun
        obtain ⟨k', hk⟩ := (hs ▸ QuotedRead.verbatim hc h).of_append hw
        rw [withoutFences, Pattern.eraseAll_of_run_eq_some hrun]
        exact ih x.2.length (fenceMarker.shorter hrun) hk rfl

theorem exists_quoted_withoutFences (h : quoted s = .ok (k, r)) :
    ∃ k', quoted (withoutFences s) = .ok (k', withoutFences r) := by
  obtain ⟨k', hk⟩ := (quoted_eq_ok_iff.mp h).unfenced
  exact ⟨k', quoted_eq_ok_iff.mpr hk⟩

/-! ## Values -/

theorem notMem_of_isNumeralChar (hw : ∀ c ∈ w, isNumeralChar c = true) : '\x60' ∉ w := by
  intro h
  exact absurd (hw _ h) (by decide)

theorem numeral_withoutFences {negative : Bool} {n : Number} (h : numeral negative s = .ok (n, r))
    (hr : r.head? ≠ some '\x60') :
    numeral negative (withoutFences s) = .ok (n, withoutFences r) := by
  obtain ⟨w, rfl, hw, hrun⟩ := takes_numeral h
  rw [withoutFences_append (notMem_of_isNumeralChar hw)]
  exact hrun _ (head?_withoutFences hr)

/-- Without fences the reader takes something from the same part of a text. -/
def Reader.Unfenced (item : Reader Value) : Prop :=
  ∀ ⦃s v r⦄, item.run s = .ok (v, r) → (skipSpace s).head? ≠ some '\x60' ∧
    (r.head? ≠ some '\x60' → ∃ v', item.run (withoutFences s) = .ok (v', withoutFences r))

section

variable {item : Reader Value} {item? : Option (Reader Value)} {v : Value} {vs : List Value}
  {m : String × Value} {ms : Members}

theorem ItemsRead.unfenced (hitem : item.Unfenced) (h : ItemsRead item s vs r) :
    (skipSpace s).head? ≠ some '\x60' ∧
      ∃ vs', ItemsRead item (withoutFences s) vs' (withoutFences r) := by
  induction h with
  | last hv ht =>
    obtain ⟨hhead, hread⟩ := hitem hv
    obtain ⟨v', hv'⟩ := hread (head?_ne_of_skipSpace ht (by decide))
    exact ⟨hhead, [v'], .last hv' (skipSpace_withoutFences_cons ht (by decide))⟩
  | more hv ht hu _ ih =>
    obtain ⟨hhead, hread⟩ := hitem hv
    obtain ⟨v', hv'⟩ := hread (head?_ne_of_skipSpace ht (by decide))
    obtain ⟨hnext, vs', hvs⟩ := ih
    refine ⟨hhead, v' :: vs', .more hv' (skipSpace_withoutFences_cons ht (by decide)) ?_ hvs⟩
    rwa [skipSpace_withoutFences hnext, head?_withoutFences hnext]

theorem ListRead.unfenced (hitem : item.Unfenced) (h : ListRead item s vs r) :
    ∃ vs', ListRead item (withoutFences s) vs' (withoutFences r) := by
  cases h with
  | nil hs => exact ⟨[], .nil (skipSpace_withoutFences_cons hs (by decide))⟩
  | items hs h =>
    obtain ⟨hhead, vs', hvs⟩ := h.unfenced hitem
    rw [skipSpace_skipSpace] at hhead
    rw [← skipSpace_withoutFences hhead] at hvs
    refine ⟨vs', .items ?_ hvs⟩
    rwa [skipSpace_withoutFences hhead, head?_withoutFences hhead]

theorem MemberRead.unfenced (hitem : item.Unfenced) (h : MemberRead item s m r)
    (hr : r.head? ≠ some '\x60') :
    ∃ m', MemberRead item (withoutFences s) m' (withoutFences r) := by
  obtain ⟨hk, ht, hv⟩ := h
  obtain ⟨k', hk'⟩ := exists_quoted_withoutFences hk
  obtain ⟨v', hv'⟩ := (hitem hv).2 hr
  rw [withoutFences_cons (by decide)]
  exact ⟨_, .mk hk' (skipSpace_withoutFences_cons ht (by decide)) hv'⟩

theorem MembersRead.unfenced (hitem : item.Unfenced) (h : MembersRead item s ms r) :
    ∃ ms', MembersRead item (withoutFences s) ms' (withoutFences r) := by
  induction h with
  | last hm ht =>
    obtain ⟨m', hm'⟩ := hm.unfenced hitem (head?_ne_of_skipSpace ht (by decide))
    exact ⟨[m'], .last hm' (skipSpace_withoutFences_cons ht (by decide))⟩
  | more hm ht h ih =>
    obtain ⟨m', hm'⟩ := hm.unfenced hitem (head?_ne_of_skipSpace ht (by decide))
    obtain ⟨ms', hms⟩ := ih
    rw [← skipSpace_withoutFences (by simp [h.head?])] at hms
    exact ⟨m' :: ms', .more hm' (skipSpace_withoutFences_cons ht (by decide)) hms⟩

theorem ObjectRead.unfenced (hitem : item.Unfenced) (h : ObjectRead item s ms r) :
    ∃ ms', ObjectRead item (withoutFences s) ms' (withoutFences r) := by
  cases h with
  | nil hs => exact ⟨[], .nil (skipSpace_withoutFences_cons hs (by decide))⟩
  | members h =>
    obtain ⟨ms', hms⟩ := h.unfenced hitem
    rw [← skipSpace_withoutFences (by simp [h.head?])] at hms
    exact ⟨ms', .members hms⟩

theorem ValueRead.head?_ne (h : ValueRead item? s v r) : s.head? ≠ some '\x60' := by
  cases h with
  | number hc =>
    rintro ⟨⟩
    simp at hc
  | _ => simp

theorem ValueRead.unfenced (hitem : ∀ item ∈ item?, item.Unfenced) (h : ValueRead item? s v r)
    (hr : r.head? ≠ some '\x60') :
    ∃ v', ValueRead item? (withoutFences s) v' (withoutFences r) := by
  have hhead := h.head?_ne
  cases h with
  | null =>
    have hword := withoutFences_append (w := ['n', 'u', 'l', 'l']) (by decide) r
    exact ⟨.null, hword ▸ ValueRead.null _⟩
  | boolTrue =>
    have hword := withoutFences_append (w := ['t', 'r', 'u', 'e']) (by decide) r
    exact ⟨.bool true, hword ▸ ValueRead.boolTrue _⟩
  | boolFalse =>
    have hword := withoutFences_append (w := ['f', 'a', 'l', 's', 'e']) (by decide) r
    exact ⟨.bool false, hword ▸ ValueRead.boolFalse _⟩
  | string h =>
    obtain ⟨k', hk⟩ := exists_quoted_withoutFences h
    rw [withoutFences_cons (by decide)]
    exact ⟨_, .string hk⟩
  | negative h =>
    rw [withoutFences_cons (by decide)]
    exact ⟨_, .negative (numeral_withoutFences h hr)⟩
  | number hc h =>
    have hn := numeral_withoutFences h hr
    rw [withoutFences_cons (by simpa using hhead)] at hn ⊢
    exact ⟨_, .number hc hn⟩
  | array hi h =>
    obtain ⟨vs', hvs⟩ := h.unfenced (hitem _ hi)
    rw [withoutFences_cons (by decide)]
    exact ⟨_, .array hi hvs⟩
  | object hi h =>
    obtain ⟨ms', hms⟩ := h.unfenced (hitem _ hi)
    rw [withoutFences_cons (by decide)]
    exact ⟨_, .object hi hms⟩

theorem value_unfenced (n : Nat) : (value n).Unfenced := by
  refine value_induction (fun item? hitem s v r h => ?_) n
  have hread := valueWith_eq_ok_iff.mp h
  refine ⟨hread.head?_ne, fun hr => ?_⟩
  obtain ⟨v', hv⟩ := hread.unfenced hitem hr
  rw [← skipSpace_withoutFences hread.head?_ne] at hv
  exact ⟨v', valueWith_eq_ok_iff.mpr hv⟩

/-- Without its fences the text of an object is the text of an object. -/
theorem IsObjectText.unfenced (h : IsObjectText s v) :
    ∃ v', IsObjectText (withoutFences s) v' := by
  obtain ⟨hhead, hr⟩ := isObjectText_iff.mp h
  obtain ⟨v', hv⟩ := (value_unfenced nestingLimit hr).2 (by simp)
  rw [withoutFences_nil] at hv
  refine ⟨v', isObjectText_iff.mpr ⟨?_, hv⟩⟩
  rw [head?_withoutFences (by simp [hhead]), hhead]

/-! ## What is found in the text of an object -/

/-- The text of an object without its fences is its only candidate. -/
theorem IsObjectText.exists_candidates_unfence (h : IsObjectText s v) :
    ∃ v', read (fenceMarker.eraseAll s) = .ok v' ∧
      candidates (unfence s) = [⟨fenceMarker.eraseAll s, .parsed v'⟩] := by
  obtain ⟨v', hv⟩ := h.unfenced
  refine ⟨v', hv.reads, ?_⟩
  rw [candidates_unfence, ← List.append_nil (fenceMarker.eraseAll s),
    candidates_append (s := fenceMarker.eraseAll s) hv, List.append_nil,
    candidates_eq_nil List.not_mem_nil]

theorem IsObjectText.extract_eq (h : IsObjectText s v) :
    ∃ v', read (fenceMarker.eraseAll s) = .ok v' ∧
      extract s = .ok (if values (fencedCandidates s) = [] then
        ⟨[v'], failures (fencedCandidates s), .wholeText⟩
      else ⟨values (fencedCandidates s), failures (fencedCandidates s), .fencedBlocks⟩) := by
  obtain ⟨v', hv, hwhole⟩ := h.exists_candidates_unfence
  refine ⟨v', hv, ?_⟩
  have hvalues : values (candidates (unfence s)) = [v'] := by
    rw [hwhole]
    rfl
  have hfailures : failures (fencedCandidates s ++ candidates (unfence s)) =
      failures (fencedCandidates s) := by
    rw [hwhole, failures, List.countP_append]
    rfl
  rw [extract, hvalues, hfailures]
  by_cases hfenced : values (fencedCandidates s) = []
  · simp [hfenced]
  · simp [hfenced]

/-- Something is found in the text of every object. It is the object itself just when the
fenced blocks hold that and nothing else, or hold nothing and erasing fences keeps it. -/
theorem extract_of_isObjectText (h : IsObjectText s v) :
    ∃ e, extract s = .ok e ∧
      (e.values = [v] ↔ values (fencedCandidates s) = [v] ∨
        values (fencedCandidates s) = [] ∧ read (fenceMarker.eraseAll s) = .ok v) ∧
      (¬fence <:+: s → e = ⟨[v], 0, .wholeText⟩) := by
  obtain ⟨v', hv, hextract⟩ := h.extract_eq
  refine ⟨_, hextract, ?_, fun hf => ?_⟩
  · rw [hv]
    split
    · rename_i hnil
      simp [hnil]
    · rename_i hne
      simp [hne]
  · rw [eraseAll_fenceMarker hf, h.reads] at hv
    obtain rfl := Except.ok.inj hv
    rw [fencedCandidates_eq_nil hf]
    rfl

theorem extract_of_isObjectText_backticks :
    ∃ e, extract ['{', '"', '\x60', '\x60', '"', ':', '{', '}', '}'] = .ok e ∧
      e = ⟨[.object [("\x60\x60", .object [])]], 0, .wholeText⟩ := by
  obtain ⟨e, he, -, h⟩ := extract_of_isObjectText
    (s := ['{', '"', '\x60', '\x60', '"', ':', '{', '}', '}'])
    (v := .object [("\x60\x60", .object [])]) ⟨rfl, rfl, by decide +kernel⟩
  exact ⟨e, he, h (by decide)⟩

/-- A fence in a string is lost. -/
theorem not_forall_extract_eq :
    ¬∀ s v, IsObjectText s v → ∃ e, extract s = .ok e ∧ e.values = [v] := by
  intro h
  obtain ⟨e, he, hv⟩ := h ['{', '"', '\x60', '\x60', '\x60', '"', ':', '1', '}']
    (.object [("\x60\x60\x60", .number (.integer 1))]) ⟨rfl, rfl, by decide +kernel⟩
  have hlost : (extract ['{', '"', '\x60', '\x60', '\x60', '"', ':', '1', '}']).toOption.map
      Extraction.values = some [.object [("", .number (.integer 1))]] := by decide +kernel
  rw [he] at hlost
  simp [Except.toOption, hv] at hlost

end

end Salvage.Json
