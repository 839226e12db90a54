import Salvage.Csv.Import
import Salvage.Proofs.Json.Members

/-! # What an imported schema says about its records

Of several columns with one name the last one counts, for the schema and for every record.
So each value is in the form of the type that the schema declares under the same key.
-/

namespace Salvage.Csv

open Form Json

/-- The values that a declared kind admits. -/
inductive Admits : FieldKind → Value → Prop where
  | blank : Admits .numeric .null
  | number (n : Number) : Admits .numeric (.number n)
  | boolean (b : Bool) : Admits .boolean (.bool b)
  | text (s : String) : Admits .text (.string s)

/-- The type that the description of a field declares. -/
def declaredType? (entry : Value) : Option String :=
  (entry.members.lookup "fieldType").bind Value.string?

theorem declaredType?_toValue (c : Column) : declaredType? c.toValue = some c.kind.name := rfl

/-- The description names the column by its key, which neither requires it nor makes it
unique. -/
theorem ofEntry_toValue (c : Column) : Form.Field.ofEntry (some c.name) c.toValue =
    ⟨c.name, c.kind.name, false, false, [("allowMultiple", .bool false)]⟩ := rfl

/-- A cell of any row is brought to the kind of the sample. -/
theorem admits_coerce (sample cell : String) :
    Admits (inferKind sample) (coerce (inferKind sample) cell) := by
  unfold inferKind
  split
  · cases h : number? cell.toList with
    | none => simpa [coerce, h] using Admits.blank
    | some n => simpa [coerce, h] using Admits.number n
  · split
    · exact .boolean _
    · exact .text _

/-- The sample itself is a value of its kind, and never blank. -/
theorem coerce_inferKind_ne_null (cell : String) : coerce (inferKind cell) cell ≠ .null := by
  unfold inferKind
  split
  · next h =>
    obtain ⟨n, hn⟩ := Option.isSome_iff_exists.1 h
    simp [coerce, hn]
  · split <;> simp [coerce]

/-! ## The columns that count -/

/-- The names of a header, each with the last column of that name. -/
def decisive (header : Row) : List (String × Nat) := Members.ofList header.zipIdx

theorem keys_decisive (header : Row) : (decisive header).map Prod.fst = header.eraseDups := by
  rw [decisive, Members.keys_ofList, List.zipIdx_map_fst]

/-- The column at an index, with the kind of the sample's cell. -/
def columnAt (sample : Row) (name : String) (i : Nat) : Column :=
  ⟨name, inferKind (cellAt sample i)⟩

/-- The descriptions of the columns that count. -/
def descriptions (header sample : Row) : Members :=
  Members.mapValues (fun name i => (columnAt sample name i).toValue) (decisive header)

theorem importSchema_fields (id : String) (header sample : Row) :
    (importSchema id (columns header sample)).fields = .object (descriptions header sample) := by
  rw [importSchema, columns, List.mapIdx_eq_zipIdx_map, List.map_map, descriptions, decisive,
    Members.mapValues_ofList]
  rfl

theorem record_columns (header sample row : Row) :
    record (columns header sample) row =
      Members.mapValues (fun name i => coerce (columnAt sample name i).kind (cellAt row i))
        (decisive header) := by
  rw [record, columns, List.mapIdx_mapIdx, List.mapIdx_eq_zipIdx_map, decisive,
    Members.mapValues_ofList]
  rfl

-- The last column of the name is empty in a short row.
example : record (columns ["a", "b", "a"] ["1", "x", "y"]) ["2", "z"] =
    [("a", .string ""), ("b", .string "z")] := by decide +kernel

theorem keys_record (header sample row : Row) :
    (record (columns header sample) row).map Prod.fst = header.eraseDups := by
  rw [record_columns, Members.keys_mapValues, keys_decisive]

theorem keys_descriptions (header sample : Row) :
    (descriptions header sample).map Prod.fst = header.eraseDups := by
  rw [descriptions, Members.keys_mapValues, keys_decisive]

/-- A value comes from the column whose description is under its key. -/
theorem lookup_descriptions {header sample row : Row} {key : String} {value : Value}
    (h : (record (columns header sample) row).lookup key = some value) :
    ∃ i, (descriptions header sample).lookup key = some (columnAt sample key i).toValue ∧
      value = coerce (inferKind (cellAt sample i)) (cellAt row i) := by
  rw [record_columns, Members.lookup_mapValues] at h
  obtain ⟨i, hi, rfl⟩ := Option.map_eq_some_iff.1 h
  refine ⟨i, ?_, rfl⟩
  rw [descriptions, Members.lookup_mapValues, hi, Option.map_some]

/-- Reading the fields gives the names and the kinds of the columns that count. -/
theorem fieldList_importSchema (id : String) (header sample : Row) :
    (importSchema id (columns header sample)).fieldList =
      .ok ((decisive header).map fun column =>
        ⟨column.1, (columnAt sample column.1 column.2).kind.name, false, false,
          [("allowMultiple", .bool false)]⟩) := by
  rw [Schema.fieldList, importSchema_fields, descriptions, readFields, Members.mapValues,
    List.map_map]
  apply congrArg Except.ok
  apply List.map_congr_left
  rintro ⟨name, i⟩ -
  exact ofEntry_toValue (columnAt sample name i)

/-! ## The schema and its records -/

/-- The fields of the schema have the given names and describe the records. -/
structure IsDescribed (names : List String) (i : Import) (fields : Members) : Prop where
  fields_eq : i.schema.fields = .object fields
  keys_fields : fields.map Prod.fst = names
  keys_record : ∀ r ∈ i.records, r.map Prod.fst = names
  admits : ∀ r ∈ i.records, ∀ key value, r.lookup key = some value →
    ∃ entry kind, fields.lookup key = some entry ∧ declaredType? entry = some kind.name ∧
      Admits kind value
  first_ne_null : ∀ r ∈ i.records.head?, ∀ key value, r.lookup key = some value → value ≠ .null
  fieldList : ∃ fs, i.schema.fieldList = .ok fs ∧
    fs.map (fun f => (f.id, some f.type)) =
      fields.map (fun entry => (entry.1, declaredType? entry.2)) ∧
    ∀ f ∈ fs, f.required = false ∧ f.unique = false

/-- An import has a record for each row but the first, and its schema describes them. -/
theorem isDescribed_importTable (id : String) (header : Row) (data : List Row) :
    (importTable id (header :: data)).records.length = data.length ∧
      ∃ fields, IsDescribed header.eraseDups (importTable id (header :: data)) fields := by
  refine ⟨List.length_map _, descriptions header (data.headD []), ?_⟩
  constructor
  case fields_eq => exact importSchema_fields id header _
  case keys_fields => exact keys_descriptions header _
  case keys_record =>
    intro r hr
    obtain ⟨row, -, rfl⟩ := List.mem_map.1 hr
    exact keys_record header _ row
  case admits =>
    intro r hr key value hvalue
    obtain ⟨row, -, rfl⟩ := List.mem_map.1 hr
    obtain ⟨i, hi, rfl⟩ := lookup_descriptions hvalue
    exact ⟨_, _, hi, declaredType?_toValue _, admits_coerce _ _⟩
  case first_ne_null =>
    intro r hr key value hvalue
    cases data with
    | nil => simp [importTable] at hr
    | cons row rows =>
      obtain rfl : record (columns header row) row = r := by simpa [importTable] using hr
      obtain ⟨i, -, rfl⟩ := lookup_descriptions hvalue
      exact coerce_inferKind_ne_null _
  case fieldList =>
    refine ⟨_, fieldList_importSchema id header _, ?_, ?_⟩
    · rw [descriptions, Members.mapValues, List.map_map, List.map_map]
      apply List.map_congr_left
      rintro ⟨name, i⟩ -
      exact congrArg (name, ·) (declaredType?_toValue (columnAt (data.headD []) name i)).symm
    · intro f hf
      obtain ⟨_, -, rfl⟩ := List.mem_map.1 hf
      exact ⟨rfl, rfl⟩

end Salvage.Csv
