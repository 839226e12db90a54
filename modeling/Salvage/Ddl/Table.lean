import Salvage.Ddl.Column
import Salvage.Ddl.Segment

/-! # Tables

The statements that create tables are found one after another, each from its first keyword
to the first semicolon behind a closing parenthesis. A table without a name or without a
column is left out.
-/

namespace Salvage.Ddl

open Text

structure Table where
  name : String
  columns : List Column
deriving DecidableEq, Repr

/-- The text behind a keyword and at least one blank. -/
def keyword? (word : String) (s : List Char) : Option (List Char) :=
  (dropWord? foldsTo word.toList s).bind skipSomeBlanks

/-- The text behind the words of a condition on the table. -/
def condition? (s : List Char) : Option (List Char) :=
  keyword? "IF" s >>= keyword? "NOT" >>= keyword? "EXISTS"

/-- A character of a table's name. Keywords are read without regard to case, and so are the
letters of the name, which makes the characters that fold to one part of it. -/
def isTableNameChar (c : Char) : Bool := isNameChar c || c == longS || c == kelvinSign

/-- The text behind the end of a statement. -/
def statementEnd? : List Char → Option (List Char)
  | ')' :: r =>
    match skipBlanks r with
    | ';' :: rest => some rest
    | _ => none
  | _ => none

/-- The name of the table behind the first keywords of a statement, and its body. -/
def nameAndBody? (s : List Char) : Option ((List Char × List Char) × List Char) := do
  let (name, t) ← takeSome isTableNameChar s
  match skipBlanks t with
  | '(' :: r => (upTo statementEnd? r).map fun (body, rest) => ((name, body), rest)
  | _ => none

theorem takeSome_length_lt {p : Char → Bool} {s found r : List Char}
    (h : takeSome p s = some (found, r)) : r.length < s.length := by
  simp only [takeSome] at h
  split at h
  · simp at h
  · rename_i hne
    obtain ⟨rfl, rfl⟩ := Prod.mk.inj (Option.some.inj h)
    have hsplit := congrArg List.length (List.takeWhile_append_dropWhile (p := p) (l := s))
    have := List.length_pos_iff.2 hne
    simp only [List.length_append] at hsplit
    omega

theorem keyword?_length_lt {word : String} {s r : List Char} (h : keyword? word s = some r) :
    r.length < s.length := by
  obtain ⟨t, ht, h⟩ := Option.bind_eq_some_iff.1 h
  obtain ⟨⟨found, u⟩, hu, rfl⟩ := Option.map_eq_some_iff.1 h
  have := dropWord?_length_add ht
  have := takeSome_length_lt hu
  simp only; omega

theorem condition?_length_lt {s r : List Char} (h : condition? s = some r) :
    r.length < s.length := by
  obtain ⟨t, ht, h⟩ := Option.bind_eq_some_iff.1 h
  obtain ⟨u, hu, ht⟩ := Option.bind_eq_some_iff.1 ht
  have := keyword?_length_lt hu
  have := keyword?_length_lt ht
  have := keyword?_length_lt h
  omega

theorem statementEnd?_length_lt {s r : List Char} (h : statementEnd? s = some r) :
    r.length < s.length := by
  unfold statementEnd? at h
  split at h
  · rename_i t
    have := skipBlanks_length_le t
    split at h
    · simp_all; omega
    · simp at h
  · simp at h

theorem nameAndBody?_length_lt {s r : List Char} {x : List Char × List Char}
    (h : nameAndBody? s = some (x, r)) : r.length < s.length := by
  obtain ⟨⟨name, t⟩, ht, h⟩ := Option.bind_eq_some_iff.1 h
  have hname := takeSome_length_lt ht
  have hblank := skipBlanks_length_le t
  simp only at h
  split at h
  · rename_i u hu
    obtain ⟨⟨body, v⟩, hv, heq⟩ := Option.map_eq_some_iff.1 h
    obtain ⟨-, rfl⟩ := Prod.mk.inj heq
    have := upTo_length_lt (fun h => Nat.le_of_lt (statementEnd?_length_lt h)) hv
    simp only [hu, List.length_cons] at hblank ⊢
    omega
  · simp at h

/-- The name and the body of a table in a statement that creates it. -/
def createTable : Pattern (List Char × List Char) where
  run s := do
    let t ← keyword? "CREATE" s >>= keyword? "TABLE"
    nameAndBody? ((condition? t).getD t)
  shorter {s _ r} h := by
    obtain ⟨t, ht, h⟩ := Option.bind_eq_some_iff.1 h
    obtain ⟨u, hu, ht⟩ := Option.bind_eq_some_iff.1 ht
    have := keyword?_length_lt hu
    have := keyword?_length_lt ht
    have := nameAndBody?_length_lt h
    cases hc : condition? t with
    | none => simp only [hc, Option.getD_none] at this; omega
    | some v =>
      have := condition?_length_lt hc
      simp only [hc, Option.getD_some] at *; omega

/-- The columns that the segments of a body define. -/
def definedColumns (mode : SplitMode) (body : List Char) : List Column :=
  ((segments mode body).filter (!constrainsTable ·)).filterMap Column.ofSegment?

/-- The table of a statement. -/
def Table.ofStatement? (mode : SplitMode) (name body : List Char) : Option Table :=
  let cs := definedColumns mode body
  if stripQuotes name = [] ∨ cs = [] then none
  else some ⟨String.ofList (stripQuotes name), cs⟩

/-- The tables of all statements, in order. -/
def tables (mode : SplitMode) (sql : List Char) : List Table :=
  (createTable.findAll sql).filterMap fun (name, body) => Table.ofStatement? mode name body

def Table.toValue (t : Table) : Json.Value :=
  .object [("tableName", .string t.name), ("columns", .array (t.columns.map Column.toValue))]

end Salvage.Ddl
