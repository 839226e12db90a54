import Salvage.Text.Blank

/-! # Patterns

A pattern reads a non-empty stretch at the start of a text. Its matches in a text are
taken from left to right, each beginning where the one before ended or later.
-/

namespace Salvage.Text

/-- A reader of a non-empty stretch of text with a value of type `α`. -/
structure Pattern (α : Type) where
  run : List Char → Option (α × List Char)
  shorter : ∀ {s a r}, run s = some (a, r) → r.length < s.length

namespace Pattern

variable {α : Type}

/-- The values of all matches, in order. -/
def findAll (p : Pattern α) (s : List Char) : List α :=
  match _h : p.run s with
  | some (a, r) => a :: findAll p r
  | none =>
    match s with
    | [] => []
    | _ :: r => findAll p r
termination_by s.length
decreasing_by
  · exact p.shorter _h
  · exact Nat.lt_succ_self _

/-- The text without the matches. -/
def eraseAll (p : Pattern α) (s : List Char) : List Char :=
  match _h : p.run s with
  | some (_, r) => eraseAll p r
  | none =>
    match s with
    | [] => []
    | c :: r => c :: eraseAll p r
termination_by s.length
decreasing_by
  · exact p.shorter _h
  · exact Nat.lt_succ_self _

end Pattern

/-- Puts a character in front of a stretch that was read. -/
def extend (c : Char) (x : Option (List Char × List Char)) : Option (List Char × List Char) :=
  x.map fun (stretch, rest) => (c :: stretch, rest)

theorem extend_eq_some_iff {c : Char} {x : Option (List Char × List Char)}
    {s rest : List Char} :
    extend c x = some (s, rest) ↔ ∃ t, x = some (t, rest) ∧ s = c :: t := by
  rcases x with _ | ⟨t, r⟩
  · simp [extend]
  · simp only [extend, Option.map_some, Option.some.injEq, Prod.mk.injEq]
    constructor
    · rintro ⟨rfl, rfl⟩
      exact ⟨t, ⟨rfl, rfl⟩, rfl⟩
    · rintro ⟨t, ⟨rfl, rfl⟩, rfl⟩
      exact ⟨rfl, rfl⟩

/-- The shortest non-empty stretch of text that `close` can follow, and what `close`
leaves. -/
def upTo (close : List Char → Option (List Char)) : List Char → Option (List Char × List Char)
  | [] => none
  | c :: r =>
    match close r with
    | some rest => some ([c], rest)
    | none => extend c (upTo close r)

theorem upTo_length_lt {close : List Char → Option (List Char)}
    (hclose : ∀ {s r}, close s = some r → r.length ≤ s.length) {s inner rest : List Char}
    (h : upTo close s = some (inner, rest)) : rest.length < s.length := by
  induction s generalizing inner with
  | nil => simp [upTo] at h
  | cons c r ih =>
    simp only [upTo] at h
    split at h
    · rename_i t ht
      obtain ⟨-, rfl⟩ := Prod.mk.inj (Option.some.inj h)
      exact Nat.lt_succ_of_le (hclose ht)
    · obtain ⟨t, ht, -⟩ := extend_eq_some_iff.1 h
      exact Nat.lt_succ_of_lt (ih ht)

/-- The text after each way to skip blanks, the longest skip first. -/
def blankSkips : List Char → List (List Char)
  | [] => [[]]
  | c :: r => if isBlank c then blankSkips r ++ [c :: r] else [c :: r]

theorem length_le_of_mem_blankSkips {s t : List Char} (h : t ∈ blankSkips s) :
    t.length ≤ s.length := by
  induction s with
  | nil => simp_all [blankSkips]
  | cons c r ih =>
    simp only [blankSkips] at h
    split at h
    · rcases List.mem_append.1 h with h | h
      · exact Nat.le_succ_of_le (ih h)
      · simp_all
    · simp_all

end Salvage.Text
