import Salvage.Json.Basic
import Salvage.Json.Writer
import Salvage.Text.Letter

/-! # Fields of a form

Producers of schemas disagree on how they write a field: in an object keyed by its id or
in a list, and under different names for the same property. Reading gives one record for
all of them, which keeps what it does not understand.
-/

namespace Salvage.Form

open Json

/-- The kind of content of a field. -/
inductive FieldKind where
  | text
  | numeric
  | boolean
  | refForm
  | computed
  | embed
  | refPickList
  | other (name : String)
deriving DecidableEq, Repr

namespace FieldKind

def name : FieldKind → String
  | .text => "TEXT"
  | .numeric => "NUMERIC"
  | .boolean => "BOOLEAN"
  | .refForm => "REF_FORM"
  | .computed => "COMPUTED"
  | .embed => "EMBED"
  | .refPickList => "REF_PICK_LIST"
  | .other name => name

/-- The kinds that have a name of their own. -/
def known : List FieldKind :=
  [.text, .numeric, .boolean, .refForm, .computed, .embed, .refPickList]

/-- The kind of this name, in any ASCII case. -/
def ofName (name : String) : FieldKind :=
  (known.find? fun k => Text.isWord name.toList k.name.toList).getD (.other name)

def isOther : FieldKind → Bool
  | .other _ => true
  | _ => false

/-- A field of this kind refers to another schema, which must be there before it. -/
def refersToSchema : FieldKind → Bool
  | .embed => true
  | .refPickList => true
  | _ => false

end FieldKind

/-- A field in the one form that all producers' forms are brought to. -/
structure Field where
  id : String
  type : String
  required : Bool
  unique : Bool
  /-- The members that say none of the above. -/
  extra : Members

def Field.kind (f : Field) : FieldKind := .ofName f.type

/-- Names for the id, the first that is there counts. -/
def idAliases : List String := ["fieldId", "name", "id"]

/-- Names for the type, the first that is there counts. -/
def typeAliases : List String := ["fieldType", "type"]

/-- Names for marks that a field is required, any of them suffices. -/
def requiredAliases : List String := ["isRequired", "required", "isPrimary"]

/-- Names for marks that a field is unique, any of them suffices. -/
def uniqueAliases : List String := ["isUnique", "unique"]

def aliases : List String := idAliases ++ typeAliases ++ requiredAliases ++ uniqueAliases

/-- The first value under one of the keys that is not null. -/
def firstNonNull (ms : Members) (keys : List String) : Option Value :=
  (keys.filterMap fun k => ms.lookup k).find? (!·.isNull)

/-- A value that counts as yes: true, a number that is not zero, or the word true. -/
def isYes : Value → Bool
  | .bool b => b
  | .number n => !n.isZero
  | .string s => Text.isWord s.toList "true".toList
  | _ => false

/-- The value under one of the keys counts as yes. -/
def anyYes (ms : Members) (keys : List String) : Bool :=
  (keys.filterMap fun k => ms.lookup k).any isYes

/-- The text of a string or a number. -/
def scalarText? : Value → Option String
  | .string s => some s
  | .number n => some (String.ofList n.write)
  | _ => none

/-- The field that an entry describes, `key` being the key it is stored under. An entry
that is not an object describes a field by its key alone. -/
def Field.ofEntry (key : Option String) (entry : Value) : Field :=
  let ms := entry.members
  { id := (((firstNonNull ms idAliases).bind scalarText?) <|> key).getD ""
    type := ((firstNonNull ms typeAliases).bind Value.string?).getD FieldKind.text.name
    required := anyYes ms requiredAliases
    unique := anyYes ms uniqueAliases
    extra := ms.filter fun (k, _) => !aliases.contains k }

/-- A value that should describe fields or a schema and does not. -/
inductive ShapeError where
  | fieldsExpected (found : Value)
  | schemaNotObject

def ShapeError.message : ShapeError → String
  | .fieldsExpected found =>
    "Invalid field shape: expected an object or array of fields, got " ++ found.noun
  | .schemaNotObject => "Invalid field shape: schema must be a JSON object"

/-- The fields that an object keyed by id or a list describes. Null describes none. -/
def readFields : Value → Except ShapeError (List Field)
  | .object ms => .ok (ms.map fun (k, v) => .ofEntry (some k) v)
  | .array vs => .ok (vs.map (.ofEntry none))
  | .null => .ok []
  | v => .error (.fieldsExpected v)

def Field.toValue (f : Field) : Value :=
  .object [("id", .string f.id), ("type", .string f.type), ("required", .bool f.required),
    ("unique", .bool f.unique), ("extra", .object f.extra)]

end Salvage.Form
