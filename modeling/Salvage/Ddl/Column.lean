import Salvage.Json.Basic
import Salvage.Text.Blank
import Salvage.Text.Letter

/-! # Columns

A column definition is a name, blanks, a type and whatever follows. The type is a word
that may carry one or two numbers in parentheses. A definition that has another form is
no column.
-/

namespace Salvage.Ddl

open Text

structure Column where
  name : String
  type : String
  primaryKey : Bool
  notNull : Bool
  unique : Bool
deriving DecidableEq, Repr

def isIdentifierQuote (c : Char) : Bool := c == '"' || c == '\x60'

/-- A character of a name, which may be quoted and qualified. -/
def isNameChar (c : Char) : Bool :=
  c.isAlphanum || c == '_' || c == '.' || isIdentifierQuote c

/-- A character of a type. -/
def isTypeChar (c : Char) : Bool := c.isAlphanum || c == '_'

def stripQuotes (name : List Char) : List Char := name.filter (!isIdentifierQuote ·)

/-- A run of at least one character with a property, and what follows it. -/
def takeSome (p : Char → Bool) (s : List Char) : Option (List Char × List Char) :=
  let found := s.takeWhile p
  if found = [] then none else some (found, s.dropWhile p)

/-- The text behind at least one blank. -/
def skipSomeBlanks (s : List Char) : Option (List Char) := (takeSome isBlank s).map (·.2)

/-- The second number of a type and what follows it. -/
def secondNumber : List Char → List Char × List Char
  | ',' :: r =>
    match takeSome Char.isDigit (skipBlanks r) with
    | some (ds, rest) => (',' :: r.takeWhile isBlank ++ ds, rest)
    | none => ([], ',' :: r)
  | s => ([], s)

/-- The numbers of a type in parentheses and what follows them. -/
def typeNumbers? : List Char → Option (List Char × List Char)
  | '(' :: r => do
    let (first, t) ← takeSome Char.isDigit r
    let (second, t) := secondNumber t
    match t with
    | ')' :: rest => some ('(' :: first ++ second ++ [')'], rest)
    | _ => none
  | _ => none

/-- The column that a segment defines. -/
def Column.ofSegment? (segment : List Char) : Option Column := do
  let (name, t) ← takeSome isNameChar segment
  let t ← skipSomeBlanks t
  let (word, t) ← takeSome isTypeChar t
  let (numbers, constraints) := (typeNumbers? t).getD ([], t)
  return {
    name := String.ofList (stripQuotes name)
    type := String.ofList ((word ++ numbers).map Char.toLower)
    primaryKey := containsWord constraints "PRIMARY KEY".toList
    notNull := containsWord constraints "NOT NULL".toList
    unique := containsWord constraints "UNIQUE".toList }

/-- What a segment starts with that constrains the table and defines no column. -/
def tableConstraints : List (List Char) :=
  ["PRIMARY KEY", "FOREIGN KEY", "CONSTRAINT", "CHECK"].map String.toList

def constrainsTable (segment : List Char) : Bool :=
  tableConstraints.any (startsWithWord segment)

def Column.toValue (c : Column) : Json.Value :=
  .object [("name", .string c.name), ("type", .string c.type),
    ("isPrimaryKey", .bool c.primaryKey), ("isNotNull", .bool c.notNull),
    ("isUnique", .bool c.unique)]

end Salvage.Ddl
