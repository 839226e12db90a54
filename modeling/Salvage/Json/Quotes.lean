/-! # Single quotes

Text that follows the JSON grammar except for single quotes around strings is made JSON
one character at a time. The state says whether the place is inside a string, which
quote opened it, and whether a backslash stands before the place.
-/

namespace Salvage.Json

inductive QuoteState where
  | outside
  | double
  | doubleEscape
  | single
  | singleEscape
deriving DecidableEq, Repr

namespace QuoteState

/-- The state behind a character, and what is written for it. The backslash before an
escaped character of a single-quoted string is written with that character, and not at
all before an apostrophe. -/
def step (q : QuoteState) (c : Char) : QuoteState × List Char :=
  match q with
  | .outside =>
    if c = '"' then (.double, ['"'])
    else if c = '\'' then (.single, ['"'])
    else (.outside, [c])
  | .double =>
    if c = '\\' then (.doubleEscape, ['\\'])
    else if c = '"' then (.outside, ['"'])
    else (.double, [c])
  | .doubleEscape => (.double, [c])
  | .single =>
    if c = '\\' then (.singleEscape, [])
    else if c = '"' then (.single, ['\\', '"'])
    else if c = '\'' then (.outside, ['"'])
    else (.single, [c])
  | .singleEscape => (.single, if c = '\'' then ['\''] else ['\\', c])

/-- What is still written at the end of the text. -/
def flush : QuoteState → List Char
  | .singleEscape => ['\\']
  | _ => []

/-- The text with double quotes, from a place in the given state on. -/
def rewrite (q : QuoteState) : List Char → List Char
  | [] => q.flush
  | c :: r => (q.step c).2 ++ (q.step c).1.rewrite r

end QuoteState

/-- The text with double quotes around every string. -/
def doubleQuotes (s : List Char) : List Char := QuoteState.outside.rewrite s

end Salvage.Json
