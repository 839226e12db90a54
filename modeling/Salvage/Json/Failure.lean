/-! # Failures of reading JSON

A failure is a cause and the place where reading stopped, given by the number of bytes
of the text behind it. The message names the place by line and by bytes from the start
of that line.
-/

namespace Salvage.Json

/-- The number of bytes of the text in UTF-8. -/
def byteCount (s : List Char) : Nat := (s.map Char.utf8Size).foldr (· + ·) 0

inductive Cause where
  | endInValue
  | endInList
  | endInObject
  | endInString
  | colonExpected
  | listEndExpected
  | objectEndExpected
  | keywordExpected
  | valueExpected
  | invalidEscape
  | invalidNumber
  | numberOutOfRange
  | loneSurrogate
  | hexEscapeCut
  | controlCharacter
  | keyNotString
  | trailingComma
  | trailingCharacters
  | nestedTooDeeply
deriving DecidableEq, Repr

def Cause.message : Cause → String
  | .endInValue => "EOF while parsing a value"
  | .endInList => "EOF while parsing a list"
  | .endInObject => "EOF while parsing an object"
  | .endInString => "EOF while parsing a string"
  | .colonExpected => "expected `:`"
  | .listEndExpected => "expected `,` or `]`"
  | .objectEndExpected => "expected `,` or `\x7d`"
  | .keywordExpected => "expected ident"
  | .valueExpected => "expected value"
  | .invalidEscape => "invalid escape"
  | .invalidNumber => "invalid number"
  | .numberOutOfRange => "number out of range"
  | .loneSurrogate => "lone leading surrogate in hex escape"
  | .hexEscapeCut => "unexpected end of hex escape"
  | .controlCharacter => "control character (\\u0000-\\u001F) found while parsing a string"
  | .keyNotString => "key must be a string"
  | .trailingComma => "trailing comma"
  | .trailingCharacters => "trailing characters"
  | .nestedTooDeeply => "recursion limit exceeded"

structure Failure where
  cause : Cause
  /-- The number of bytes behind the place. -/
  bytesLeft : Nat
deriving DecidableEq, Repr

namespace Failure

/-- A failure just behind the first byte of the rest. -/
def behindFirst (cause : Cause) (rest : List Char) : Failure := ⟨cause, byteCount rest - 1⟩

/-- A failure in front of the rest. -/
def before (cause : Cause) (rest : List Char) : Failure := ⟨cause, byteCount rest⟩

end Failure

/-- A line from 1, and the bytes from its start. -/
structure Place where
  line : Nat
  column : Nat
deriving DecidableEq, Repr

namespace Place

/-- The place reached from this one by a number of bytes of the text. -/
def advance (p : Place) (bytes : Nat) : List Char → Place
  | [] => p
  | c :: r =>
    if bytes = 0 then p
    else
      advance (if c = '\n' then ⟨p.line + 1, 0⟩ else ⟨p.line, p.column + min bytes c.utf8Size⟩)
        (bytes - c.utf8Size) r

end Place

/-- The place of a failure in the text that was read. -/
def Failure.place (f : Failure) (text : List Char) : Place :=
  (Place.mk 1 0).advance (byteCount text - f.bytesLeft) text

def Failure.message (f : Failure) (text : List Char) : String :=
  let p := f.place text
  f.cause.message ++ " at line " ++ toString p.line ++ " column " ++ toString p.column

/-- Applies a function to what was read, and leaves the rest of the text as it is. -/
def mapRead {α β : Type} (f : α → β) :
    Except Failure (α × List Char) → Except Failure (β × List Char)
  | .error e => .error e
  | .ok (a, r) => .ok (f a, r)

theorem mapRead_eq_ok_iff {α β : Type} {f : α → β} {x : Except Failure (α × List Char)} {b : β}
    {r : List Char} : mapRead f x = .ok (b, r) ↔ ∃ a, x = .ok (a, r) ∧ f a = b := by
  rcases x with e | ⟨a, t⟩
  · simp [mapRead]
  · simp only [mapRead, Except.ok.injEq, Prod.mk.injEq]
    constructor
    · rintro ⟨rfl, rfl⟩
      exact ⟨a, ⟨rfl, rfl⟩, rfl⟩
    · rintro ⟨a, ⟨rfl, rfl⟩, rfl⟩
      exact ⟨rfl, rfl⟩

end Salvage.Json
