import Salvage.Ddl.Token

/-! # Segments of a table body

A body is split into definitions at its commas. The naive split takes every comma; the
other one takes the comma tokens outside parentheses, and so leaves strings, comments and
the arguments of types alone.
-/

namespace Salvage.Ddl

open Text

inductive SplitMode where
  | naive
  | parenDepth
deriving DecidableEq, Repr

/-- How many parentheses are open behind a token. One that closes none does not count. -/
def Token.depthAfter (depth : Nat) : Token → Nat
  | .leftParen => depth + 1
  | .rightParen => depth - 1
  | _ => depth

/-- Puts text in front of the first segment. -/
def prepend (text : List Char) : List (List Char) → List (List Char)
  | [] => [text]
  | s :: ss => (text ++ s) :: ss

/-- The text of the tokens, split at the commas outside parentheses. -/
def splitTokens (depth : Nat) : List Token → List (List Char)
  | [] => [[]]
  | t :: ts =>
    if t = .comma ∧ depth = 0 then [] :: splitTokens 0 ts
    else prepend t.text (splitTokens (t.depthAfter depth) ts)

def splitNaive (body : List Char) : List (List Char) := body.splitOn ','

/-- The split at commas outside parentheses, if the body can be read as tokens. -/
def splitByDepth? (body : List Char) : Option (List (List Char)) :=
  (Token.ofText body).map (splitTokens 0)

/-- The pieces of a body. A body that cannot be read as tokens is split naively. -/
def pieces (mode : SplitMode) (body : List Char) : List (List Char) :=
  match mode with
  | .naive => splitNaive body
  | .parenDepth => (splitByDepth? body).getD (splitNaive body)

/-- The pieces on one line each, without blanks at their ends, and those left that hold
anything. -/
def segments (mode : SplitMode) (body : List Char) : List (List Char) :=
  ((pieces mode body).map fun s => trim (joinLines s)).filter (!·.isEmpty)

end Salvage.Ddl
