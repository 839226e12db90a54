import Salvage.Ddl.Column
import Salvage.Form.Field

/-! # Fields of table columns

A column is a field of the form of its table. A primary key is required and unique.
-/

namespace Salvage.Form

def Field.ofColumn (c : Ddl.Column) : Field where
  id := c.name
  type := c.type
  required := c.notNull || c.primaryKey
  unique := c.unique || c.primaryKey
  extra := if c.primaryKey then [("primaryKey", .bool true)] else []

end Salvage.Form
