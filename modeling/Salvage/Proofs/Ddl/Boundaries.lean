import Salvage.Proofs.Ddl.Depth

/-! # The boundaries of segments

The split by depth keeps all tokens, and parts them at the commas behind which no parenthesis is
open. Where every comma of a body is one of those, the naive split parts it at the same places.
-/

namespace Salvage.Ddl

open Token

variable {body : List Char} {before after ts us : List Token} {d k : ℕ} {t : Token}

namespace Token

/-! ## Depth -/

/-- How many parentheses are open behind the tokens, where `depth` of them are open already. -/
def depthBehind (depth : ℕ) (ts : List Token) : ℕ := ts.foldl depthAfter depth

@[simp] theorem depthBehind_nil (depth : ℕ) : depthBehind depth [] = depth := rfl

@[simp] theorem depthBehind_cons (depth : ℕ) (t : Token) (ts : List Token) :
    depthBehind depth (t :: ts) = depthBehind (t.depthAfter depth) ts := rfl

theorem depthBehind_concat (depth : ℕ) (ts : List Token) (t : Token) :
    depthBehind depth (ts ++ [t]) = t.depthAfter (depthBehind depth ts) := by
  simp [depthBehind]

theorem le_depthAfter_iff (t : Token) :
    k ≤ t.depthAfter d ↔ k = 0 ∨ k + [t].count .rightParen ≤ d + [t].count .leftParen := by
  cases t <;> simp [depthAfter] <;> omega

/-- From some place on, the tokens open `k` parentheses more than they close. -/
def Opens (k : ℕ) (ts : List Token) : Prop :=
  ∃ us vs, ts = us ++ vs ∧ vs.count .rightParen + k ≤ vs.count .leftParen

theorem opens_concat_iff (ts : List Token) (t : Token) :
    Opens k (ts ++ [t]) ↔ k = 0 ∨ ∃ us vs, ts = us ++ vs ∧
      (vs ++ [t]).count .rightParen + k ≤ (vs ++ [t]).count .leftParen := by
  constructor
  · rintro ⟨us, vs, heq, hcount⟩
    rcases List.eq_nil_or_concat' vs with rfl | ⟨vs, u, rfl⟩
    · left
      simpa using hcount
    · right
      rw [← List.append_assoc] at heq
      obtain ⟨rfl, hlast⟩ := List.append_inj' heq rfl
      obtain rfl := (List.cons.inj hlast).1
      exact ⟨us, vs, rfl, hcount⟩
  · rintro (rfl | ⟨us, vs, rfl, hcount⟩)
    · exact ⟨ts ++ [t], [], by simp, by simp⟩
    · exact ⟨us, vs ++ [t], by simp, hcount⟩

/-- A parenthesis that closes none is not counted, so the tokens in front of it do not bear on
the depth. -/
theorem le_depthBehind_iff : k ≤ depthBehind 0 ts ↔ Opens k ts := by
  induction ts using List.reverseRecOn generalizing k with
  | nil =>
    constructor
    · intro h
      exact ⟨[], [], rfl, by simpa using h⟩
    · rintro ⟨us, vs, h, hcount⟩
      obtain ⟨-, rfl⟩ := List.append_eq_nil_iff.mp h.symm
      simpa using hcount
  | append_singleton ts t ih =>
    rw [depthBehind_concat, le_depthAfter_iff, opens_concat_iff, ← Nat.sub_le_iff_le_add, ih]
    refine or_congr_right' fun hk => ?_
    have hone : [t].count .leftParen ≤ 1 := List.count_le_length
    simp only [Opens, List.count_append]
    refine exists₂_congr fun us vs => and_congr_right fun _ => ?_
    omega

end Token

/-! ## Boundaries -/

variable {g : List Token} {groups : List (List Token)}

/-- The tokens are those of the first groups, with the commas between them, and other groups
follow. -/
def IsBoundary (groups : List (List Token)) (before : List Token) : Prop :=
  ∃ gs hs, groups = gs ++ hs ∧ gs ≠ [] ∧ hs ≠ [] ∧ [.comma].intercalate gs = before

/-- The tokens are those of the groups with a comma between each two. A comma stands between
groups just if no parenthesis is open in front of it, where `depth` of them are open already. -/
structure IsGrouping (depth : ℕ) (ts : List Token) (groups : List (List Token)) : Prop where
  ne_nil : groups ≠ []
  intercalate_eq : [.comma].intercalate groups = ts
  boundary_iff : ∀ before after, ts = before ++ .comma :: after →
    (IsBoundary groups before ↔ depthBehind depth before = 0)

theorem intercalate_cons_cons_eq (t : Token) (g : List Token) (groups : List (List Token)) :
    [.comma].intercalate ((t :: g) :: groups) = t :: [.comma].intercalate (g :: groups) := by
  cases groups with
  | nil => simp
  | cons h groups => simp

theorem intercalate_nil_cons_eq (hne : groups ≠ []) :
    [.comma].intercalate ([] :: groups) = Token.comma :: [.comma].intercalate groups := by
  obtain ⟨g, groups, rfl⟩ := List.exists_cons_of_ne_nil hne
  simp

theorem isBoundary_cons_iff :
    IsBoundary (g :: groups) before ↔
      groups ≠ [] ∧ before = g ∨ ∃ rest, IsBoundary groups rest ∧ before = g ++ .comma :: rest := by
  constructor
  · rintro ⟨gs, hs, heq, hgs, hhs, rfl⟩
    obtain ⟨f, gs, rfl⟩ := List.exists_cons_of_ne_nil hgs
    obtain ⟨rfl, rfl⟩ := List.cons.inj heq
    cases gs with
    | nil => exact .inl ⟨hhs, by simp⟩
    | cons k gs => exact .inr ⟨_, ⟨k :: gs, hs, rfl, by simp, hhs, rfl⟩, by simp⟩
  · rintro (⟨hgroups, rfl⟩ | ⟨rest, ⟨gs, hs, rfl, hgs, hhs, rfl⟩, rfl⟩)
    · exact ⟨[before], groups, rfl, by simp, hgroups, by simp⟩
    · obtain ⟨k, gs, rfl⟩ := List.exists_cons_of_ne_nil hgs
      exact ⟨g :: k :: gs, hs, rfl, by simp, hhs, by simp⟩

namespace IsGrouping

theorem nil (depth : ℕ) : IsGrouping depth [] [[]] where
  ne_nil := by simp
  intercalate_eq := rfl
  boundary_iff := by simp

/-- A comma outside parentheses begins a new group. -/
theorem boundary (h : IsGrouping 0 ts groups) : IsGrouping 0 (.comma :: ts) ([] :: groups) where
  ne_nil := by simp
  intercalate_eq := by rw [intercalate_nil_cons_eq h.ne_nil, h.intercalate_eq]
  boundary_iff := by
    intro before after heq
    cases before with
    | nil => simp [isBoundary_cons_iff, h.ne_nil]
    | cons t before =>
      obtain ⟨rfl, htail⟩ := List.cons.inj heq
      simpa [isBoundary_cons_iff, depthAfter] using h.boundary_iff before after htail

/-- Any other token is the next one of the group. -/
theorem cons (ht : ¬(t = .comma ∧ d = 0)) (h : IsGrouping (t.depthAfter d) ts (g :: groups)) :
    IsGrouping d (t :: ts) ((t :: g) :: groups) where
  ne_nil := by simp
  intercalate_eq := by rw [intercalate_cons_cons_eq, h.intercalate_eq]
  boundary_iff := by
    intro before after heq
    cases before with
    | nil =>
      obtain ⟨rfl, -⟩ := List.cons.inj heq
      exact iff_of_false (by simp [isBoundary_cons_iff]) fun hd => ht ⟨rfl, hd⟩
    | cons u before =>
      obtain ⟨rfl, htail⟩ := List.cons.inj heq
      simpa [isBoundary_cons_iff] using h.boundary_iff before after htail

theorem textOf_eq (h : IsGrouping d ts groups) :
    [','].intercalate (groups.map textOf) = textOf ts := by
  rw [← h.intercalate_eq]
  clear h
  induction groups with
  | nil => rfl
  | cons g groups ih =>
    cases groups with
    | nil => simp
    | cons h groups =>
      rw [List.map_cons] at ih
      rw [List.map_cons, List.map_cons, List.intercalate_cons_cons, ih]
      simp [text]

end IsGrouping

theorem exists_isGrouping (d : ℕ) (ts : List Token) :
    ∃ groups, IsGrouping d ts groups ∧ splitTokens d ts = groups.map textOf := by
  induction ts generalizing d with
  | nil => exact ⟨[[]], .nil d, rfl⟩
  | cons t ts ih =>
    by_cases ht : t = .comma ∧ d = 0
    · obtain ⟨rfl, rfl⟩ := ht
      obtain ⟨groups, hgroups, hsplit⟩ := ih 0
      exact ⟨[] :: groups, hgroups.boundary, by simp [splitTokens, hsplit]⟩
    · obtain ⟨groups, hgroups, hsplit⟩ := ih (t.depthAfter d)
      obtain ⟨g, groups, rfl⟩ := List.exists_cons_of_ne_nil hgroups.ne_nil
      exact ⟨(t :: g) :: groups, hgroups.cons ht, by simp [splitTokens, ht, hsplit, prepend]⟩

/-! ## Both splits -/

/-- Every comma in the text of a token is a comma token, and no parenthesis is open there. -/
def HasOuterCommas (depth : ℕ) (ts : List Token) : Prop :=
  ∀ before t after, ts = before ++ t :: after → ',' ∈ t.text →
    t = .comma ∧ depthBehind depth before = 0

theorem hasOuterCommas_nil (d : ℕ) : HasOuterCommas d [] := by
  intro before t after heq
  simp at heq

theorem hasOuterCommas_cons_iff :
    HasOuterCommas d (t :: ts) ↔
      (',' ∈ t.text → t = .comma ∧ d = 0) ∧ HasOuterCommas (t.depthAfter d) ts := by
  constructor
  · refine fun h => ⟨h [] t ts rfl, ?_⟩
    rintro before u after rfl
    exact h (t :: before) u after rfl
  · rintro ⟨hhead, htail⟩ before u after heq
    cases before with
    | nil =>
      obtain ⟨rfl, -⟩ := List.cons.inj heq
      exact hhead
    | cons v before =>
      obtain ⟨rfl, heq'⟩ := List.cons.inj heq
      exact htail before u after heq'

theorem HasOuterCommas.comma_notMem (h : HasOuterCommas d ts) :
    ∀ s ∈ splitTokens d ts, ',' ∉ s := by
  induction ts generalizing d with
  | nil => simp [splitTokens]
  | cons t ts ih =>
    obtain ⟨hhead, htail⟩ := hasOuterCommas_cons_iff.mp h
    have ih := ih htail
    rw [splitTokens]
    split
    · rename_i ht
      obtain ⟨rfl, rfl⟩ := ht
      exact List.forall_mem_cons.mpr ⟨List.not_mem_nil, ih⟩
    · rename_i ht
      have htext : ',' ∉ t.text := fun hmem => ht (hhead hmem)
      obtain ⟨s, ss, hs⟩ := List.exists_cons_of_ne_nil (splitTokens_ne_nil (t.depthAfter d) ts)
      rw [hs, List.forall_mem_cons] at ih
      rw [hs, prepend, List.forall_mem_cons, List.mem_append, not_or]
      exact ⟨⟨htext, ih.1⟩, ih.2⟩

/-- The naive split takes apart what is joined with commas. -/
theorem HasOuterCommas.splitNaive_eq (h : HasOuterCommas 0 ts) :
    splitNaive (textOf ts) = splitTokens 0 ts := by
  obtain ⟨groups, hgroups, hsplit⟩ := exists_isGrouping 0 ts
  have hjoined : [','].intercalate (splitTokens 0 ts) = textOf ts := by
    rw [hsplit, hgroups.textOf_eq]
  rw [splitNaive, ← hjoined]
  exact List.splitOn_intercalate ',' h.comma_notMem (splitTokens_ne_nil 0 ts)

/-- The segments joined with commas are the text of all tokens. They are parted at the commas
outside parentheses and no others. Where these are all commas of a body that its tokens give back,
both splits give the same segments. -/
theorem segments_eq_of_commas (ts : List Token) :
    [','].intercalate (splitTokens 0 ts) = textOf ts ∧
      (∃ groups, IsGrouping 0 ts groups ∧ splitTokens 0 ts = groups.map textOf ∧
        ∀ before after, ts = before ++ .comma :: after →
          (IsBoundary groups before ↔ ¬Opens 1 before)) ∧
      ∀ body, Token.ofText body = some ts → textOf ts = body → HasOuterCommas 0 ts →
        segments .parenDepth body = segments .naive body := by
  obtain ⟨groups, hgroups, hsplit⟩ := exists_isGrouping 0 ts
  refine ⟨by rw [hsplit, hgroups.textOf_eq], ⟨groups, hgroups, hsplit, ?_⟩, ?_⟩
  · intro before after hts
    rw [hgroups.boundary_iff before after hts, ← le_depthBehind_iff]
    omega
  · rintro body htokens rfl hcommas
    have hpieces : pieces .parenDepth (textOf ts) = pieces .naive (textOf ts) := by
      rw [pieces, pieces, splitByDepth?, htokens, hcommas.splitNaive_eq]
      rfl
    rw [segments, segments, hpieces]

/-- The closing parenthesis of the second segment closes none. -/
theorem segments_eq_of_commas_unopened :
    Token.ofText "a(b),c),d".toList = some [.other ['a'], .leftParen, .other ['b'], .rightParen,
        .comma, .other ['c'], .rightParen, .comma, .other ['d']] ∧
      segments .parenDepth "a(b),c),d".toList = segments .naive "a(b),c),d".toList := by
  have htokens : Token.ofText "a(b),c),d".toList = some [.other ['a'], .leftParen, .other ['b'],
      .rightParen, .comma, .other ['c'], .rightParen, .comma, .other ['d']] := by decide +kernel
  refine ⟨htokens, (segments_eq_of_commas _).2.2 _ htokens rfl ?_⟩
  simp [hasOuterCommas_cons_iff, hasOuterCommas_nil, text, depthAfter]

end Salvage.Ddl
