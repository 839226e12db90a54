import Salvage.Ddl.Lexeme

/-! # Tokens

Of the lexemes of a table body only commas and parentheses bear on how it is split. All
others are tokens with a text and nothing else.
-/

namespace Salvage.Ddl

inductive Token where
  | comma
  | leftParen
  | rightParen
  | other (text : List Char)
deriving DecidableEq, Repr

namespace Token

def text : Token → List Char
  | .comma => [',']
  | .leftParen => ['(']
  | .rightParen => [')']
  | .other text => text

/-- The token that starts with the character `c`, and what follows it. -/
def read (c : Char) (r : List Char) : Option (Token × List Char) :=
  if c = ',' then some (.comma, r)
  else if c = '(' then some (.leftParen, r)
  else if c = ')' then some (.rightParen, r)
  else (lexeme c r).map fun (text, rest) => (.other text, rest)

theorem read_length_le {c : Char} {s r : List Char} {t : Token} (h : read c s = some (t, r)) :
    r.length ≤ s.length := by
  unfold read at h
  split at h
  · simp_all
  split at h
  · simp_all
  split at h
  · simp_all
  obtain ⟨⟨text, rest⟩, hl, heq⟩ := Option.map_eq_some_iff.1 h
  obtain ⟨-, rfl⟩ := Prod.mk.inj heq
  exact lexeme_length_le hl

/-- The tokens of a text, if all of it can be read. -/
def ofText (s : List Char) : Option (List Token) :=
  match s with
  | [] => some []
  | c :: r =>
    match _h : read c r with
    | none => none
    | some (t, rest) => (ofText rest).map (t :: ·)
termination_by s.length
decreasing_by
  have := read_length_le _h
  simp only [List.length_cons]; omega

end Token

end Salvage.Ddl
