import Salvage.Proofs.Json.Prose
import Salvage.Proofs.Text.Blank
import Salvage.Proofs.Text.Word

/-! # Fenced blocks

Where backticks stand in fences only, the fences of a text pair up in order. What is taken
from a block may lack blanks or letters at its start that its inner text has, or have some
of its language, but nothing from the first brace on. So the candidates of the text are
those of the inner texts.
-/

namespace Salvage.Json

open Text

variable {p s t u w : List Char} {c : Char}

/-! ## What is taken from a block -/

theorem opening_notMem_of_dropWord? {tag : List Char} (htag : tag ∈ fenceTags)
    (h : dropWord? foldsTo tag s = some t) : ∃ a, s = a ++ t ∧ '{' ∉ a := by
  obtain ⟨a, rfl, ha⟩ := exists_of_dropWord? h
  refine ⟨a, rfl, fun hmem => ?_⟩
  obtain ⟨letter, hletter, hfolds⟩ := ha '{' hmem
  have hletters : fenceTags.flatten.all (foldsTo · '{' == false) = true := by decide
  have hfalse := List.all_eq_true.mp hletters letter (List.mem_flatten.mpr ⟨tag, htag, hletter⟩)
  simp [hfolds] at hfalse

theorem opening_notMem_of_mem_tagSkips (h : t ∈ tagSkips s) : ∃ a, s = a ++ t ∧ '{' ∉ a := by
  rcases List.mem_append.mp h with h | h
  · obtain ⟨tag, htag, hdrop⟩ := List.mem_filterMap.mp h
    exact opening_notMem_of_dropWord? htag hdrop
  · obtain rfl := List.mem_singleton.mp h
    exact ⟨[], rfl, List.not_mem_nil⟩

theorem opening_notMem_of_mem_blankSkips (h : t ∈ blankSkips s) : ∃ a, s = a ++ t ∧ '{' ∉ a := by
  induction s with
  | nil =>
    obtain rfl := List.mem_singleton.mp h
    exact ⟨[], rfl, List.not_mem_nil⟩
  | cons c s ih =>
    simp only [blankSkips] at h
    split at h
    · rename_i hc
      rcases List.mem_append.mp h with h | h
      · obtain ⟨a, rfl, ha⟩ := ih h
        have hne : '{' ≠ c := by
          rintro rfl
          exact absurd hc (by decide)
        exact ⟨c :: a, rfl, by simp [hne, ha]⟩
      · obtain rfl := List.mem_singleton.mp h
        exact ⟨[], rfl, List.not_mem_nil⟩
    · obtain rfl := List.mem_singleton.mp h
      exact ⟨[], rfl, List.not_mem_nil⟩

theorem blankSkips_ne_nil (s : List Char) : blankSkips s ≠ [] := by
  fun_cases blankSkips s <;> simp

/-- Behind a fence there is a first place to begin, and no brace before it. -/
theorem exists_first_skip (s : List Char) :
    ∃ t ts, (tagSkips s).flatMap blankSkips = t :: ts ∧ ∃ a, s = a ++ t ∧ '{' ∉ a := by
  have hne : (tagSkips s).flatMap blankSkips ≠ [] := by
    intro h
    exact blankSkips_ne_nil s (List.flatMap_eq_nil_iff.mp h s (by simp [tagSkips]))
  obtain ⟨t, ts, hts⟩ := List.exists_cons_of_ne_nil hne
  refine ⟨t, ts, hts, ?_⟩
  obtain ⟨u, hu, ht⟩ := List.mem_flatMap.mp (hts ▸ List.mem_cons_self)
  obtain ⟨a, rfl, ha⟩ := opening_notMem_of_mem_tagSkips hu
  obtain ⟨b, rfl, hb⟩ := opening_notMem_of_mem_blankSkips ht
  exact ⟨a ++ b, by simp, by simp [ha, hb]⟩

theorem fencedBlock_cons (hc : c ≠ '\x60') (s : List Char) : fencedBlock.run (c :: s) = none := by
  simp [fencedBlock, afterFence?_cons hc]

/-- Between two fences one block is found, and the candidates are those of all that stands
there. -/
theorem exists_fencedBlock (hopen : '{' ∈ w) (hw : '\x60' ∉ w) (u : List Char) :
    ∃ m, fencedBlock.run (fence ++ (w ++ (fence ++ u))) = some (m, u) ∧
      candidates m = candidates w := by
  have hclose : ∀ s, afterFence? (fence ++ s) = some s := fun s => dropWord?_beq_eq_some_iff.mpr rfl
  obtain ⟨t, ts, hskips, a, heq, ha⟩ := exists_first_skip (w ++ (fence ++ u))
  obtain ⟨m, rfl, rfl, -⟩ := exists_of_append_eq_append heq hopen ha
  obtain _ | ⟨e, m⟩ := m
  · simp [ha] at hopen
  have hnone : ∀ v, v ≠ [] → v <:+ m → afterFence? (v ++ (fence ++ u)) = none := by
    intro v hv hsuffix
    obtain ⟨d, v, rfl⟩ := List.exists_cons_of_ne_nil hv
    refine afterFence?_cons ?_ _
    rintro rfl
    have hmem := List.mem_cons_of_mem e (hsuffix.subset List.mem_cons_self)
    exact hw (List.mem_append_right a hmem)
  refine ⟨e :: m, ?_, ?_⟩
  · change (do
        let r ← afterFence? (fence ++ (a ++ e :: m ++ (fence ++ u)))
        ((tagSkips r).flatMap blankSkips).findSome? (upTo afterFence?)) = _
    rw [hclose, Option.bind_eq_bind, Option.bind_some, hskips, List.findSome?_cons,
      List.cons_append, upTo_append (hclose u) hnone]
  · rw [candidates, candidates, spans_append_left ha]

/-! ## Blocks between prose -/

/-- Nothing, or a language in any ASCII case. -/
def IsTag (w : List Char) : Prop := w = [] ∨ ∃ tag ∈ fenceTags, isWord w tag = true

/-- Fenced blocks in order, each with its inner text, and prose around them. Backticks stand
in fences only. -/
inductive Fenced : List Char → List (List Char) → Prop where
  | prose {p : List Char} (hp : '\x60' ∉ p) : Fenced p []
  | block {p a g t u : List Char} {ts : List (List Char)} (hp : '\x60' ∉ p) (htag : IsTag a)
      (hgap : Blanks g) (hopen : '{' ∈ t) (ht : '\x60' ∉ t) (h : Fenced u ts) :
      Fenced (p ++ (fence ++ (a ++ g ++ t ++ (fence ++ u)))) (t :: ts)

theorem IsTag.notMem (h : IsTag w) (hc : c.toLower = c)
    (htags : ∀ tag ∈ fenceTags, c ∉ lower tag) : c ∉ w := by
  rcases h with rfl | ⟨tag, htag, hword⟩
  · exact List.not_mem_nil
  · intro hmem
    have hlower : c.toLower ∈ lower w := List.mem_map_of_mem hmem
    rw [isWord_iff.mp hword, hc] at hlower
    exact htags tag htag hlower

/-- The candidates in fenced blocks are those of the inner texts. -/
theorem Fenced.fencedCandidates_eq {ts : List (List Char)} (h : Fenced s ts) :
    fencedCandidates s = ts.flatMap candidates := by
  have hprose : ∀ {p : List Char}, '\x60' ∉ p → ∀ c ∈ p, ∀ s, fencedBlock.run (c :: s) = none := by
    intro p hp c hc s
    refine fencedBlock_cons ?_ s
    rintro rfl
    exact hp hc
  induction h with
  | @prose p hp =>
    have hfind := Pattern.findAll_append_of_run_eq_none (hprose hp) []
    rw [List.append_nil, Pattern.findAll_nil] at hfind
    simp only [fencedCandidates, hfind, List.flatMap_nil]
  | @block p tag gap t u ts hp htag hgap hopen ht _ ih =>
    have hfront : '{' ∉ tag ++ gap := by
      simp [htag.notMem (c := '{') (by decide) (by decide),
        hgap.notMem (c := '{') (by decide)]
    have htick : '\x60' ∉ tag ++ gap ++ t := by
      simp [htag.notMem (c := '\x60') (by decide) (by decide),
        hgap.notMem (c := '\x60') (by decide), ht]
    obtain ⟨m, hrun, hm⟩ := exists_fencedBlock (List.mem_append_right _ hopen) htick u
    have hinner : candidates (tag ++ gap ++ t) = candidates t := by
      rw [candidates, spans_append_left hfront, candidates]
    rw [fencedCandidates, Pattern.findAll_append_of_run_eq_none (hprose hp),
      Pattern.findAll_of_run_eq_some hrun, List.flatMap_cons, hm, hinner, List.flatMap_cons, ← ih,
      fencedCandidates]

/-- Where a candidate in a fenced block can be read, the blocks are read one by one, and the
prose around them has no part in the answer. -/
theorem extract_of_fenced {ts : List (List Char)} (h : Fenced s ts)
    (hv : ∃ t ∈ ts, ∃ c ∈ candidates t, c.value?.isSome) :
    extract s = .ok ⟨values (ts.flatMap candidates), failures (ts.flatMap candidates),
      .fencedBlocks⟩ := by
  have hne : values (ts.flatMap candidates) ≠ [] := by
    obtain ⟨t, ht, c, hc, hsome⟩ := hv
    obtain ⟨v, hread⟩ := Option.isSome_iff_exists.mp hsome
    exact List.ne_nil_of_mem
      (List.mem_filterMap.mpr ⟨c, List.mem_flatMap.mpr ⟨t, ht, hc⟩, hread⟩)
  rw [extract, h.fencedCandidates_eq]
  simp [hne]

/-- The first block is read as one of language json, although its inner text begins within
that word. -/
theorem extract_of_fenced_two :
    extract (['{'] ++ (fence ++ (['j', 'S'] ++ [] ++
      ['o', 'n', '{', '\'', 'k', '\'', ':', '1', '}'] ++
        (fence ++ (['}'] ++ (fence ++ ([] ++ ['\n'] ++ ['{', '}', '{', 'a', '}'] ++
          (fence ++ ['{'])))))))) =
      .ok ⟨[.object [("k", .number (.integer 1))], .object []], 1, .fencedBlocks⟩ := by
  have hfenced := Fenced.block (p := ['{']) (a := ['j', 'S']) (g := [])
    (t := ['o', 'n', '{', '\'', 'k', '\'', ':', '1', '}']) (by decide)
    (.inr ⟨['j', 's'], by decide, by decide⟩) (by simp [Blanks]) (by decide) (by decide)
    (.block (p := ['}']) (a := []) (g := ['\n']) (t := ['{', '}', '{', 'a', '}']) (by decide)
      (.inl rfl) (by simp [Blanks, isBlank, inRanges, blankRanges]) (by decide) (by decide)
      (.prose (p := ['{']) (by decide)))
  rw [extract_of_fenced hfenced (by decide +kernel)]
  have hvalues : values ([['o', 'n', '{', '\'', 'k', '\'', ':', '1', '}'],
      ['{', '}', '{', 'a', '}']].flatMap candidates) =
        [.object [("k", .number (.integer 1))], .object []] := by decide +kernel
  have hfailures : failures ([['o', 'n', '{', '\'', 'k', '\'', ':', '1', '}'],
      ['{', '}', '{', 'a', '}']].flatMap candidates) = 1 := by decide +kernel
  rw [hvalues, hfailures]

end Salvage.Json
