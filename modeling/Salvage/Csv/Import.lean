import Salvage.Csv.Cell
import Salvage.Csv.Table
import Salvage.Form.Schema

/-! # Importing a table

The first row names the columns, the second one decides their kinds, and every row but
the first is a record. Where two columns have one name the later one counts.
-/

namespace Salvage.Csv

open Form Json

/-- A schema and the records that it describes. -/
structure Import where
  schema : Schema
  records : List Members

/-- A named column. -/
structure Column where
  name : String
  kind : FieldKind

/-- The cell of a column. A short row is continued with empty cells. -/
def cellAt (row : Row) (column : Nat) : String := (row[column]?).getD ""

/-- The columns that a header names, with the kinds of the cells of a sample row. -/
def columns (header sample : Row) : List Column :=
  header.mapIdx fun i name => ⟨name, inferKind (cellAt sample i)⟩

/-- How a schema describes the column. -/
def Column.toValue (c : Column) : Value :=
  .object [("fieldId", .string c.name), ("fieldType", .string c.kind.name),
    ("allowMultiple", .bool false)]

def record (cs : List Column) (row : Row) : Members :=
  Members.ofList (cs.mapIdx fun i c => (c.name, coerce c.kind (cellAt row i)))

def importSchema (id : String) (cs : List Column) : Schema where
  id
  fields := .object (Members.ofList (cs.map fun c => (c.name, c.toValue)))
  extra := [("description", .string ("Auto-generated schema from CSV: " ++ id))]

/-- The schema and the records of a table. -/
def importTable (id : String) : List Row → Import
  | [] => ⟨⟨id, .object [], []⟩, []⟩
  | header :: data =>
    let cs := columns header (data.headD [])
    ⟨importSchema id cs, data.map (record cs)⟩

end Salvage.Csv
