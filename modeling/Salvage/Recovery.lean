import Salvage.Csv.Import
import Salvage.Ddl.Table
import Salvage.Json.Extraction
import Salvage.Text.Encoding

/-! # Recovery of one input

An input is bytes under a file name. Its format says how it is read, and its name, without
the extension, names the schemas that give themselves no id.
-/

namespace Salvage

open Json Form

inductive InputFormat where
  | csv
  | sql
  | json
  /-- JSON that describes fields. -/
  | fields
deriving DecidableEq, Repr

/-- The last part of a path, if it names something. -/
def fileName? (path : String) : Option (List Char) :=
  match ((path.toList.splitOn '/').filter fun p => p ≠ [] ∧ p ≠ ['.']).getLast? with
  | none => none
  | some p => if p = ['.', '.'] then none else some p

/-- The parts of a file name before and behind its last point. A point at the start does not
begin an extension. -/
def splitExtension (name : List Char) : List Char × Option (List Char) :=
  let behind := (name.reverse.takeWhile (· != '.')).reverse
  let before := name.take (name.length - behind.length - 1)
  if before = [] then (name, none) else (before, some behind)

def extensionOf (path : String) : Option (List Char) :=
  (fileName? path).bind fun name => (splitExtension name).2

/-- The stem of a path that has none. -/
def defaultStem : String := "schema"

/-- The file name without its extension. -/
def stemOf (path : String) : String :=
  ((fileName? path).map fun name => String.ofList (splitExtension name).1).getD defaultStem

def csvExtensions : List String := ["csv", "tsv", "txt"]

def sqlExtensions : List String := ["sql", "ddl"]

namespace InputFormat

/-- The format that the extension of a path suggests. -/
def ofPath (path : String) : InputFormat :=
  match extensionOf path with
  | none => .json
  | some ext =>
    let isAmong (names : List String) : Bool := names.any fun n => Text.isWord ext n.toList
    if isAmong csvExtensions then .csv
    else if isAmong sqlExtensions then .sql
    else .json

end InputFormat

/-- How an input is read. -/
structure Options where
  format : InputFormat
  delimiter : Option Char
  split : Ddl.SplitMode
  maxBytes : Nat

/-- The largest input by default, 10 MiB. -/
def defaultMaxBytes : Nat := 10 * 1024 * 1024

/-- What an input yields. -/
inductive Salvaged where
  | csv (rows : List Csv.Row) (imported : Csv.Import)
  | sql (tables : List Ddl.Table)
  | json (values : List Value) (failures : Nat) (schemas : List Schema)
  | fields (fields : List Form.Field)

/-- Why an input yields nothing. -/
inductive RecoveryError where
  | missing (path : String)
  | tooLarge (size limit : Nat)
  | undecodable (path : String)
  | nothingFound (e : NothingFound)
  | badShape (e : ShapeError)

def RecoveryError.message : RecoveryError → String
  | .missing path =>
    "Failed to read input file: " ++ path ++ ": No such file or directory (os error 2)"
  | .tooLarge size limit =>
    "Input is " ++ toString size ++ " bytes, exceeding the limit of " ++ toString limit ++ " bytes"
  | .undecodable path => "Input file is neither UTF-8 nor Windows-1252: " ++ path
  | .nothingFound e => e.message
  | .badShape e => e.message

/-- What is read as fields in a value: its member of that name if it has one. -/
def fieldSource (v : Value) : Value := (v.members.lookup fieldsKey).getD v

/-- The fields of all values, or the first failure. -/
def readAllFields : List Value → Except ShapeError (List Form.Field)
  | [] => .ok []
  | v :: vs => do
    let fs ← readFields (fieldSource v)
    let gs ← readAllFields vs
    return fs ++ gs

/-- What the text of an input yields. -/
def recoverText (o : Options) (stem : String) (text : List Char) :
    Except RecoveryError Salvaged :=
  match o.format with
  | .csv =>
    let rows := Csv.table o.delimiter text
    .ok (.csv rows (Csv.importTable stem rows))
  | .sql => .ok (.sql (Ddl.tables o.split text))
  | .json =>
    match extract text with
    | .error e => .error (.nothingFound e)
    | .ok x => .ok (.json x.values x.failures (referrersLast (schemasIn stem x.values)))
  | .fields =>
    match extract text with
    | .error e => .error (.nothingFound e)
    | .ok x => ((readAllFields x.values).map .fields).mapError .badShape

/-- What a file yields, given its content if it is there. -/
def salvage (o : Options) (path : String) (content : Option ByteArray) :
    Except RecoveryError Salvaged :=
  match content with
  | none => .error (.missing path)
  | some bytes =>
    if o.maxBytes < bytes.size then .error (.tooLarge bytes.size o.maxBytes)
    else
      match Text.decode bytes with
      | none => .error (.undecodable path)
      | some text => recoverText o (stemOf path) text.toList

namespace Salvaged

/-- The recovered parts under their names, behind the format of the input. -/
def toValue : Salvaged → Value
  | .csv rows i => .object [
      ("kind", .string "csv"),
      ("rows", .array (rows.map fun r => .array (r.map .string))),
      ("schema", i.schema.toValue),
      ("records", .array (i.records.map .object))]
  | .sql tables => .object [
      ("kind", .string "sql"), ("tables", .array (tables.map Ddl.Table.toValue))]
  | .json values failures schemas => .object [
      ("kind", .string "json"), ("values", .array values),
      ("failures", .number (.integer failures)), ("schemas", .array (schemas.map Schema.toValue))]
  | .fields fs => .object [
      ("kind", .string "fields"), ("fields", .array (fs.map Form.Field.toValue))]

end Salvaged

end Salvage
