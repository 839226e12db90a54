import Salvage.Proofs.Json.Prose

/-! # Outcomes of an extraction

A candidate is read as an object or counted as a failure, so what is found and what fails
add up. A text that is an object as a whole is a candidate itself, and the last stage, which
reads the text as one value, is left with lists.
-/

namespace Salvage.Json

open Text

variable {s t : List Char} {v : Value} {cs : List Candidate}

/-! ## Candidates -/

theorem length_values_add_failures (cs : List Candidate) :
    (values cs).length + failures cs = cs.length := by
  induction cs with
  | nil => rfl
  | cons c cs ih =>
    simp only [values, failures] at ih ⊢
    cases h : c.value? with
    | none => simp [h]; omega
    | some v => simp [h]; omega

theorem failures_eq_length (h : values cs = []) : failures cs = cs.length := by
  simpa [h] using length_values_add_failures cs

theorem failures_append (cs ds : List Candidate) :
    failures (cs ++ ds) = failures cs + failures ds := List.countP_append

theorem isObject_of_read (h : read ('{' :: s) = .ok v) : v.isObject = true := by
  obtain ⟨r, hr, -⟩ := read_eq_ok_iff.mp h
  exact (passes_of_value hr).2

theorem exists_of_mem_spans (h : t ∈ spans s) : ∃ u, t = '{' :: u := by
  fun_induction spans s with
  | case1 => simp at h
  | case2 => simp at h
  | case3 s w r hw ih =>
    rcases List.mem_cons.mp h with rfl | h
    · exact ⟨w, rfl⟩
    · exact ih h
  | case4 c s hc ih => exact ih h

/-- A span that can be read, as it is or with its quotes repaired, is an object. -/
theorem isObject_of_value? (ht : t ∈ spans s) (h : (Candidate.ofSpan t).value? = some v) :
    v.isObject = true := by
  obtain ⟨u, rfl⟩ := exists_of_mem_spans ht
  simp only [Candidate.ofSpan, Candidate.value?] at h
  cases hread : read ('{' :: u) with
  | ok w =>
    obtain rfl : w = v := by simpa [hread] using h
    exact isObject_of_read hread
  | error e =>
    have hquotes : doubleQuotes ('{' :: u) = '{' :: doubleQuotes u := rfl
    cases hrepaired : read (doubleQuotes ('{' :: u)) with
    | ok w =>
      obtain rfl : w = v := by simpa [hread, hrepaired] using h
      exact isObject_of_read (hquotes ▸ hrepaired)
    | error f => simp [hread, hrepaired] at h

theorem isObject_of_mem_values (h : v ∈ values (candidates s)) : v.isObject = true := by
  obtain ⟨c, hc, hv⟩ := List.mem_filterMap.mp h
  obtain ⟨t, ht, rfl⟩ := List.mem_map.mp hc
  exact isObject_of_value? ht hv

theorem isObject_of_mem_values_fenced (h : v ∈ values (fencedCandidates s)) :
    v.isObject = true := by
  obtain ⟨c, hc, hv⟩ := List.mem_filterMap.mp h
  obtain ⟨t, -, ht⟩ := List.mem_flatMap.mp hc
  exact isObject_of_mem_values (List.mem_filterMap.mpr ⟨c, ht, hv⟩)

/-! ## The text as one value -/

theorem isBlank_of_isSpace {c : Char} (h : isSpace c = true) : isBlank c = true := by
  rcases eq_of_isSpace h with rfl | rfl | rfl | rfl <;> decide

/-- The text neither begins nor ends with a space. -/
def IsTrim (s : List Char) : Prop :=
  (∀ c ∈ s.head?, isSpace c = false) ∧ ∀ c ∈ s.getLast?, isSpace c = false

theorem isTrim_of_tight (h : Tight s) : IsTrim s := by
  have hspace : ∀ {c : Char}, isBlank c = false → isSpace c = false := by
    intro c hc
    cases h : isSpace c with
    | false => rfl
    | true => simp [isBlank_of_isSpace h] at hc
  obtain ⟨⟨c, hc, hblank⟩, d, hd, hblank'⟩ := h
  rw [IsTrim, hc, hd]
  exact ⟨by simpa using hspace hblank, by simpa using hspace hblank'⟩

theorem isTrim_unfence (s : List Char) : IsTrim (unfence s) := by
  have hregion : IsRegion (trim (fenceMarker.eraseAll s)) (unfence s) := isRegion_bracketed _
  rcases hregion.eq_or with hwhole | hbrackets
  · rw [hwhole]
    by_cases hnil : trim (fenceMarker.eraseAll s) = []
    · simp [hnil, IsTrim]
    · exact isTrim_of_tight (tight_trim hnil)
  · exact isTrim_of_tight hbrackets.tight

/-- A text that is read as an object is the text of that object, but for spaces around it. -/
theorem IsTrim.isObjectText (hs : IsTrim s) (h : read s = .ok v) (hv : v.isObject = true) :
    IsObjectText s v := by
  obtain ⟨r, hr, hspace⟩ := read_eq_ok_iff.mp h
  obtain ⟨item?, hvalue, -⟩ := exists_valueWith nestingLimit
  have hread : ValueRead item? (skipSpace s) v r := valueWith_eq_ok_iff.mp (hvalue ▸ hr)
  have hskip : skipSpace s = s := dropWhile_eq_self_of_head? hs.1
  have hhead : s.head? = some '{' := by
    rw [hskip] at hread
    cases hread with
    | object => rfl
    | _ => simp [Value.isObject] at hv
  obtain ⟨t, rfl⟩ := List.head?_eq_some_iff.mp hhead
  obtain ⟨w, rfl, -⟩ := (passes_of_value hr).1.exists_items
  refine ⟨hhead, ?_, h⟩
  rcases List.eq_nil_or_concat r with rfl | ⟨u, a, rfl⟩
  · rw [← List.cons_append, List.getLast?_concat]
  · have ha := hs.2 a (by simp [List.getLast?_cons])
    simp [isSpace_of_skipSpace hspace a (by simp)] at ha

/-- A text that is an object without its fences is its only candidate. -/
theorem values_candidates_unfence (h : read (unfence s) = .ok v) (hv : v.isObject = true) :
    values (candidates (unfence s)) = [v] := by
  have hobject := (isTrim_unfence s).isObjectText h hv
  rw [← List.append_nil (unfence s), candidates_append hobject, candidates_eq_nil List.not_mem_nil]
  rfl

/-! ## Outcomes -/

/-- What may come of the candidates in fenced blocks and those in the whole text. -/
inductive IsOutcome (fenced whole : List Candidate) : Except NothingFound Extraction → Prop where
  | fencedBlocks {vs : List Value} {n : Nat} (hne : vs ≠ []) (hobject : ∀ v ∈ vs, v.isObject = true)
      (hcount : vs.length + n = fenced.length) :
      IsOutcome fenced whole (.ok ⟨vs, n, .fencedBlocks⟩)
  | wholeText {vs : List Value} {n : Nat} (hne : vs ≠ []) (hobject : ∀ v ∈ vs, v.isObject = true)
      (hcount : vs.length + n = fenced.length + whole.length) :
      IsOutcome fenced whole (.ok ⟨vs, n, .wholeText⟩)
  | singleValue (items : List Value) :
      IsOutcome fenced whole (.ok ⟨[.array items], fenced.length + whole.length, .singleValue⟩)
  | nothing :
      IsOutcome fenced whole
        (.error ⟨fenced.length + whole.length + 1, fenced.length + whole.length + 1⟩)

theorem exists_of_container? (h : container? s = some v) (hv : v.isObject = false) :
    ∃ items, v = .array items := by
  simp only [container?, Option.filter_eq_some_iff, hv, Bool.false_or] at h
  cases v with
  | array items => exact ⟨items, rfl⟩
  | _ => simp [Value.isArray] at h

theorem read_of_container? (h : container? s = some v) : read s = .ok v := by
  simp only [container?, Option.filter_eq_some_iff] at h
  cases hread : read s with
  | error e => simp [hread, Except.toOption] at h
  | ok w => simpa [hread, Except.toOption] using h.1

/-- What is found are objects, or one list where there is no object to be found. Each
candidate counts once, as a value or as a failure, and so does the last attempt. -/
theorem isOutcome_extract (s : List Char) :
    IsOutcome (fencedCandidates s) (candidates (unfence s)) (extract s) ∧
      ∀ v, read (unfence s) = .ok v → v.isObject = true →
        values (candidates (unfence s)) = [v] := by
  refine ⟨?_, fun v => values_candidates_unfence⟩
  simp only [extract]
  split
  · rename_i hfenced
    exact .fencedBlocks (by simpa using hfenced) (fun v => isObject_of_mem_values_fenced)
      (length_values_add_failures _)
  rename_i hfenced
  have hfenced : values (fencedCandidates s) = [] := by simpa using hfenced
  rw [failures_append, failures_eq_length hfenced]
  split
  · rename_i hwhole
    refine .wholeText (by simpa using hwhole) (fun v => isObject_of_mem_values) ?_
    have hcount := length_values_add_failures (candidates (unfence s))
    omega
  rename_i hwhole
  have hwhole : values (candidates (unfence s)) = [] := by simpa using hwhole
  rw [failures_eq_length hwhole, List.length_append]
  split
  · rename_i v hv
    have hlist : v.isObject = false := by
      rw [Bool.eq_false_iff]
      intro hobject
      simp [values_candidates_unfence (read_of_container? hv) hobject] at hwhole
    obtain ⟨items, rfl⟩ := exists_of_container? hv hlist
    exact .singleValue items
  · exact .nothing

theorem isOutcome_extract_brace :
    read (unfence ['a', ' ', '{', '"', '}', '"', ' ', ':', '1', '}', '\n']) =
        .ok (.object [("\x7d", .number (.integer 1))]) ∧
      values (candidates (unfence ['a', ' ', '{', '"', '}', '"', ' ', ':', '1', '}', '\n'])) =
        [.object [("\x7d", .number (.integer 1))]] := by
  have hread : read (unfence ['a', ' ', '{', '"', '}', '"', ' ', ':', '1', '}', '\n']) =
      .ok (.object [("\x7d", .number (.integer 1))]) := by decide +kernel
  exact ⟨hread, (isOutcome_extract _).2 _ hread rfl⟩

end Salvage.Json
