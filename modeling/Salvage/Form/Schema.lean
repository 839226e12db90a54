import Salvage.Form.Field

/-! # Schemas of forms

A schema has an id and a description of its fields, and keeps every other member of the
object that it is read from.
-/

namespace Salvage.Form

open Json

structure Schema where
  id : String
  fields : Value
  extra : Members

def idKey : String := "formId"

def fieldsKey : String := "fields"

namespace Schema

/-- The id that a member gives, which is a string and not empty. -/
def ownId? (ms : Members) : Option String :=
  ((ms.lookup idKey).bind Value.string?).filter (· ≠ "")

/-- The description of the fields. One that is missing or null is an empty object. -/
def describedFields (ms : Members) : Value :=
  match ms.lookup fieldsKey with
  | none | some .null => .object []
  | some v => v

/-- The schema of an object's members, with `fallback` for the id where they give none. -/
def ofMembers (fallback : String) (ms : Members) : Schema where
  id := (ownId? ms).getD fallback
  fields := describedFields ms
  extra := Members.swapErase fieldsKey (Members.swapErase idKey ms)

def ofValue (fallback : String) : Value → Except ShapeError Schema
  | .object ms => .ok (ofMembers fallback ms)
  | _ => .error .schemaNotObject

def fieldList (s : Schema) : Except ShapeError (List Field) := readFields s.fields

/-- Some field refers to another schema. Fields that cannot be read refer to none. -/
def refersToSchema (s : Schema) : Bool :=
  match s.fieldList with
  | .ok fs => fs.any (·.kind.refersToSchema)
  | .error _ => false

/-- The id and the fields, and behind them the other members. -/
def toValue (s : Schema) : Value :=
  .object ((idKey, .string s.id) :: (fieldsKey, s.fields) :: s.extra)

end Schema

/-- The value itself, or the items of a list. -/
def unpack : Value → List Value
  | .array vs => vs
  | v => [v]

/-- The members of the objects among the values and in the lists among them. -/
def objects (vs : List Value) : List Members :=
  (vs.flatMap unpack).filterMap fun v => if v.isObject then some v.members else none

/-- The id of the `n`-th object that gives none, counted from zero. -/
def fallbackId (stem : String) (n : Nat) : String := stem ++ "_" ++ toString (n + 1)

/-- The schemas of all objects, in order. -/
def schemasIn (stem : String) (vs : List Value) : List Schema :=
  (objects vs).mapIdx fun n ms => .ofMembers (fallbackId stem n) ms

/-- The schemas that refer to no other, and behind them those that do. -/
def referrersLast (schemas : List Schema) : List Schema :=
  schemas.filter (!·.refersToSchema) ++ schemas.filter (·.refersToSchema)

end Salvage.Form
