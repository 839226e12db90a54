import Salvage.Text.Pattern

/-! # Brace spans

A span begins with a brace and ends with the brace that closes it. Braces inside string
literals do not count, and quotes outside a span do not begin a literal.
-/

namespace Salvage.Json

open Text

/-- Where a place inside a span is. -/
inductive SpanState where
  | code
  | string
  | escape
deriving DecidableEq, Repr

/-- The state behind a character that opens and closes no brace. -/
def SpanState.step (q : SpanState) (c : Char) : SpanState :=
  match q with
  | .code => if c = '"' then .string else .code
  | .string => if c = '\\' then .escape else if c = '"' then .code else .string
  | .escape => .string

/-- The rest of a span with `depth` inner braces open, and what follows it. -/
def closeSpan (depth : Nat) (q : SpanState) : List Char → Option (List Char × List Char)
  | [] => none
  | c :: r =>
    if q = .code ∧ c = '{' then
      extend c (closeSpan (depth + 1) q r)
    else if q = .code ∧ c = '}' then
      match depth with
      | 0 => some ([c], r)
      | depth + 1 => extend c (closeSpan depth q r)
    else extend c (closeSpan depth (q.step c) r)

theorem append_of_closeSpan {depth : Nat} {q : SpanState} {s span rest : List Char}
    (h : closeSpan depth q s = some (span, rest)) : span ++ rest = s := by
  fun_induction closeSpan depth q s generalizing span with
  | case1 => simp at h
  | case2 _ _ c r _ ih =>
    obtain ⟨t, ht, rfl⟩ := extend_eq_some_iff.1 h
    simp [ih ht]
  | case3 => obtain ⟨rfl, rfl⟩ := Prod.mk.inj (Option.some.inj h); rfl
  | case4 _ c r _ _ _ ih =>
    obtain ⟨t, ht, rfl⟩ := extend_eq_some_iff.1 h
    simp [ih ht]
  | case5 _ _ c r _ _ ih =>
    obtain ⟨t, ht, rfl⟩ := extend_eq_some_iff.1 h
    simp [ih ht]

theorem closeSpan_length_lt {depth : Nat} {q : SpanState} {s span rest : List Char}
    (h : closeSpan depth q s = some (span, rest)) : rest.length < s.length := by
  fun_induction closeSpan depth q s generalizing span with
  | case1 => simp at h
  | case2 _ _ c r _ ih =>
    obtain ⟨t, ht, rfl⟩ := extend_eq_some_iff.1 h
    exact Nat.lt_succ_of_lt (ih ht)
  | case3 => simp_all
  | case4 _ c r _ _ _ ih =>
    obtain ⟨t, ht, rfl⟩ := extend_eq_some_iff.1 h
    exact Nat.lt_succ_of_lt (ih ht)
  | case5 _ _ c r _ _ ih =>
    obtain ⟨t, ht, rfl⟩ := extend_eq_some_iff.1 h
    exact Nat.lt_succ_of_lt (ih ht)

/-- The spans of the text, in order. A span that is not closed ends the search. -/
def spans (s : List Char) : List (List Char) :=
  match s with
  | [] => []
  | c :: r =>
    if c = '{' then
      match _h : closeSpan 0 .code r with
      | none => []
      | some (span, rest) => (c :: span) :: spans rest
    else spans r
termination_by s.length
decreasing_by
  · have := closeSpan_length_lt _h
    simp only [List.length_cons]; omega
  · simp

end Salvage.Json
