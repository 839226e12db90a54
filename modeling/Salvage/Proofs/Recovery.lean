import Salvage.Proofs.Form.Arrangement
import Salvage.Recovery

/-! # Fields with and without schemas

The fields of an input are those of its values one after another, unless those of some value
cannot be read: then the first such value decides. The schemas of the same input have the fields
of the values that they are made of, and come in another order if one of them refers to another.
So both ways tell the same.
-/

namespace Salvage

open Json Form

variable {e : ShapeError} {fields v : Value} {fs : List Form.Field} {lists : List (List Form.Field)}
  {schemas schemas' : List Schema} {before after vs : List Value}

/-! ## Lists of outcomes -/

section

variable {α : Type} {f : α → Except ShapeError (List Form.Field)} {l : List α}

theorem forall₂_ok_iff :
    List.Forall₂ (fun a fs => f a = .ok fs) l lists ↔ l.map f = lists.map .ok := by
  have hmap : List.Forall₂ (· = ·) (l.map f) (lists.map .ok) ↔ l.map f = lists.map .ok := by
    rw [List.forall₂_eq_eq_eq]
  rw [← hmap, List.forall₂_map_left_iff, List.forall₂_map_right_iff]

theorem exists_forall₂_ok_iff :
    (∃ lists, List.Forall₂ (fun a fs => f a = .ok fs) l lists) ↔ ∀ a ∈ l, ∃ fs, f a = .ok fs := by
  induction l with
  | nil => simp
  | cons a l ih =>
    rw [List.forall_mem_cons, ← ih]
    constructor
    · rintro ⟨_, ha | ⟨ha, hlists⟩⟩
      exact ⟨⟨_, ha⟩, _, hlists⟩
    · rintro ⟨⟨fs, hfs⟩, lists, hlists⟩
      exact ⟨fs :: lists, .cons hfs hlists⟩

end

/-! ## Fields of values -/

/-- The value is an object with a member for its fields. -/
def GivesFields (v fields : Value) : Prop :=
  ∃ ms, v = .object ms ∧ ms.lookup fieldsKey = some fields

theorem GivesFields.fieldSource_eq (h : GivesFields v fields) : fieldSource v = fields := by
  obtain ⟨ms, rfl, hlookup⟩ := h
  rw [fieldSource, Value.members, hlookup, Option.getD_some]

theorem readAllFields_of_ok (h : readFields (fieldSource v) = .ok fs) (vs : List Value) :
    readAllFields (v :: vs) = (readAllFields vs).map (fs ++ ·) := by
  rw [readAllFields, h]
  cases readAllFields vs <;> rfl

theorem readAllFields_of_error (h : readFields (fieldSource v) = .error e) (vs : List Value) :
    readAllFields (v :: vs) = .error e := by
  rw [readAllFields, h]
  rfl

/-- The lists are what the values describe. -/
def AreRead (vs : List Value) (lists : List (List Form.Field)) : Prop :=
  List.Forall₂ (fun v fs => readFields (fieldSource v) = .ok fs) vs lists

theorem AreRead.readAllFields_eq (h : AreRead vs lists) :
    readAllFields vs = .ok lists.flatten := by
  induction h with
  | nil => rfl
  | cons hv _ ih =>
    rw [readAllFields_of_ok hv, ih]
    rfl

theorem AreRead.readAllFields_append (h : AreRead before lists)
    (hv : readFields (fieldSource v) = .error e) (after : List Value) :
    readAllFields (before ++ v :: after) = .error e := by
  induction h with
  | nil => exact readAllFields_of_error hv after
  | cons hw _ ih =>
    rw [List.cons_append, readAllFields_of_ok hw, ih]
    rfl

/-- All values are read, or those in front of one that cannot be read. -/
theorem exists_areRead (vs : List Value) :
    (∃ lists, AreRead vs lists) ∨ ∃ before v after lists e, vs = before ++ v :: after ∧
      AreRead before lists ∧ readFields (fieldSource v) = .error e := by
  induction vs with
  | nil => exact .inl ⟨[], .nil⟩
  | cons w vs ih =>
    cases hw : readFields (fieldSource w) with
    | error e => exact .inr ⟨[], w, vs, [], e, rfl, .nil, hw⟩
    | ok fs =>
      rcases ih with ⟨lists, hlists⟩ | ⟨before, v, after, lists, e, rfl, hlists, hv⟩
      · exact .inl ⟨fs :: lists, .cons hw hlists⟩
      · exact .inr ⟨w :: before, v, after, fs :: lists, e, rfl, .cons hw hlists, hv⟩

/-! ## Fields of schemas -/

/-- The lists are the fields of the schemas. -/
def HaveFields (schemas : List Schema) (lists : List (List Form.Field)) : Prop :=
  List.Forall₂ (fun s fs => s.fieldList = .ok fs) schemas lists

/-- Null describes no fields, and neither does the empty object in its place. -/
theorem readFields_describedFields {ms : Members} (h : ms.lookup fieldsKey = some fields) :
    readFields (Schema.describedFields ms) = readFields fields := by
  rw [Schema.describedFields, h]
  cases fields <;> rfl

theorem map_fieldList_schemasIn (stem : String) (vs : List Value) :
    (schemasIn stem vs).map Schema.fieldList =
      (objects vs).map fun ms => readFields (Schema.describedFields ms) := by
  rw [schemasIn, List.mapIdx_eq_zipIdx_map, List.map_map]
  conv_rhs => rw [← List.zipIdx_map_fst 0 (objects vs), List.map_map]
  rfl

theorem map_objects (hvs : ∀ v ∈ vs, ∃ fields, GivesFields v fields) :
    (objects vs).map (fun ms => readFields (Schema.describedFields ms)) =
      vs.map fun v => readFields (fieldSource v) := by
  rw [objects_eq]
  induction vs with
  | nil => rfl
  | cons v vs ih =>
    obtain ⟨⟨fields, hv⟩, hvs⟩ := List.forall_mem_cons.mp hvs
    rw [List.flatMap_cons, List.map_append, ih hvs, List.map_cons, hv.fieldSource_eq]
    obtain ⟨ms, rfl, hlookup⟩ := hv
    rw [objectsIn, List.map_singleton, readFields_describedFields hlookup]
    rfl

/-- Each value describes the fields of the schema that is made of it. -/
theorem haveFields_schemasIn_iff (stem : String)
    (hvs : ∀ v ∈ vs, ∃ fields, GivesFields v fields) :
    HaveFields (schemasIn stem vs) lists ↔ AreRead vs lists := by
  rw [HaveFields, AreRead, forall₂_ok_iff, forall₂_ok_iff, map_fieldList_schemasIn,
    map_objects hvs]

theorem perm_referrersLast (schemas : List Schema) : (referrersLast schemas).Perm schemas := by
  have hperm := List.filter_append_perm (fun s : Schema => !s.refersToSchema) schemas
  simpa [referrersLast] using hperm

/-- The fields of all values are read just if those of each schema are. -/
theorem exists_readAllFields_iff (stem : String)
    (hvs : ∀ v ∈ vs, ∃ fields, GivesFields v fields) :
    (∃ fs, readAllFields vs = .ok fs) ↔
      ∀ s ∈ referrersLast (schemasIn stem vs), ∃ fs, s.fieldList = .ok fs := by
  have hall : (∀ s ∈ referrersLast (schemasIn stem vs), ∃ fs, s.fieldList = .ok fs) ↔
      ∃ lists, AreRead vs lists := by
    simp only [(perm_referrersLast _).mem_iff, ← haveFields_schemasIn_iff stem hvs]
    exact exists_forall₂_ok_iff.symm
  rw [hall]
  rcases exists_areRead vs with ⟨lists, hread⟩ | ⟨before, v, after, lists, e, rfl, hread, hv⟩
  · exact iff_of_true ⟨_, hread.readAllFields_eq⟩ ⟨lists, hread⟩
  · have herror := hread.readAllFields_append hv after
    refine iff_of_false ?_ ?_
    · rintro ⟨fs, hfs⟩
      exact absurd (herror.symm.trans hfs) (by simp)
    · rintro ⟨lists', hread'⟩
      exact absurd (herror.symm.trans hread'.readAllFields_eq) (by simp)

theorem exists_of_readAllFields_ok (stem : String)
    (hvs : ∀ v ∈ vs, ∃ fields, GivesFields v fields) (h : readAllFields vs = .ok fs) :
    ∃ lists lists', fs = lists.flatten ∧ HaveFields (schemasIn stem vs) lists ∧
      HaveFields (referrersLast (schemasIn stem vs)) lists' ∧
      lists'.flatten.Perm lists.flatten := by
  rcases exists_areRead vs with ⟨lists, hread⟩ | ⟨before, v, after, lists, e, rfl, hread, hv⟩
  · have hlists := (haveFields_schemasIn_iff stem hvs).mpr hread
    obtain ⟨lists', hlists', hperm⟩ := List.perm_comp_forall₂ (perm_referrersLast _) hlists
    refine ⟨lists, lists', ?_, hlists, hlists', hperm.flatten⟩
    exact Except.ok.inj (h.symm.trans hread.readAllFields_eq)
  · exact absurd (h.symm.trans (hread.readAllFields_append hv after)) (by simp)

theorem exists_of_readAllFields_error (hvs : ∀ v ∈ vs, ∃ fields, GivesFields v fields)
    (h : readAllFields vs = .error e) :
    ∃ before v after fields, vs = before ++ v :: after ∧
      (∀ w ∈ before, ∃ fields fs, GivesFields w fields ∧ readFields fields = .ok fs) ∧
      GivesFields v fields ∧ readFields fields = .error e := by
  rcases exists_areRead vs with ⟨lists, hread⟩ | ⟨before, v, after, lists, e', rfl, hread, hv⟩
  · exact absurd (h.symm.trans hread.readAllFields_eq) (by simp)
  · obtain rfl := Except.error.inj (h.symm.trans (hread.readAllFields_append hv after))
    obtain ⟨hbefore, hrest⟩ := List.forall_mem_append.mp hvs
    obtain ⟨fields, hfields⟩ := hrest v List.mem_cons_self
    refine ⟨before, v, after, fields, rfl, fun w hw => ?_, hfields, hfields.fieldSource_eq ▸ hv⟩
    obtain ⟨fields, hfields⟩ := hbefore w hw
    obtain ⟨fs, hfs⟩ := exists_forall₂_ok_iff.mp ⟨lists, hread⟩ w hw
    exact ⟨fields, fs, hfields, hfields.fieldSource_eq ▸ hfs⟩

/-! ## Both ways -/

section

variable {bytes : ByteArray} {o : Options} {text : String} {x : Extraction}

theorem salvage_of_decode (hsize : bytes.size ≤ o.maxBytes)
    (htext : Text.decode bytes = some text) (path : String) :
    salvage o path (some bytes) = recoverText o (stemOf path) text.toList := by
  simp [salvage, Nat.not_lt.mpr hsize, htext]

theorem recoverText_json (hformat : o.format = .json) (hextract : extract text.toList = .ok x)
    (stem : String) :
    recoverText o stem text.toList =
      .ok (.json x.values x.failures (referrersLast (schemasIn stem x.values))) := by
  rw [recoverText, hformat, hextract]

theorem recoverText_fields (hformat : o.format = .fields)
    (hextract : extract text.toList = .ok x) (stem : String) :
    recoverText o stem text.toList =
      ((readAllFields x.values).map .fields).mapError .badShape := by
  rw [recoverText, hformat, hextract]

/-- Both ways give the same fields of a file whose values describe some, up to their order. Fields
of schemas that cannot be read are those of some value, and the first such value decides. -/
theorem salvage_fields_and_json (hsize : bytes.size ≤ o.maxBytes)
    (htext : Text.decode bytes = some text) (hextract : extract text.toList = .ok x)
    (hvalues : ∀ v ∈ x.values, ∃ fields, GivesFields v fields) (path : String) :
    ∃ schemas, salvage { o with format := .json } path (some bytes) =
        .ok (.json x.values x.failures schemas) ∧
      ((∃ r, salvage { o with format := .fields } path (some bytes) = .ok r) ↔
        ∀ s ∈ schemas, ∃ fs, s.fieldList = .ok fs) ∧
      (∀ r, salvage { o with format := .fields } path (some bytes) = .ok r →
        ∃ lists lists', r = .fields lists.flatten ∧
          HaveFields (schemasIn (stemOf path) x.values) lists ∧
          HaveFields schemas lists' ∧ lists'.flatten.Perm lists.flatten) ∧
      ∀ error, salvage { o with format := .fields } path (some bytes) = .error error →
        ∃ before v after fields e, x.values = before ++ v :: after ∧
          (∀ w ∈ before, ∃ fields fs, GivesFields w fields ∧ readFields fields = .ok fs) ∧
          GivesFields v fields ∧ readFields fields = .error e ∧ error = .badShape e := by
  rw [salvage_of_decode (o := { o with format := .json }) hsize htext,
    salvage_of_decode (o := { o with format := .fields }) hsize htext,
    recoverText_json rfl hextract, recoverText_fields rfl hextract]
  refine ⟨_, rfl, ?_⟩
  rw [← exists_readAllFields_iff (stemOf path) hvalues]
  cases h : readAllFields x.values with
  | ok fs =>
    refine ⟨iff_of_true ⟨_, rfl⟩ ⟨fs, rfl⟩, ?_, ?_⟩
    · rintro r ⟨⟩
      obtain ⟨lists, lists', rfl, hlists⟩ := exists_of_readAllFields_ok (stemOf path) hvalues h
      exact ⟨lists, lists', rfl, hlists⟩
    · rintro error ⟨⟩
  | error e =>
    refine ⟨iff_of_false ?_ ?_, ?_, ?_⟩
    · rintro ⟨r, ⟨⟩⟩
    · rintro ⟨fs, ⟨⟩⟩
    · rintro r ⟨⟩
    · rintro error ⟨⟩
      obtain ⟨before, v, after, fields, hx, hbefore, hv, herror⟩ :=
        exists_of_readAllFields_error hvalues h
      exact ⟨before, v, after, fields, e, hx, hbefore, hv, herror, rfl⟩

end

deriving instance DecidableEq for Extraction

/-- Two schemas, of which the first one refers to another. -/
def pets : List Value :=
  [.object [("fields", .array [.object [("id", .number (.integer 1)), ("type", .string "embed")]])],
    .object [("fields", .object [("a", .null)])]]

def petsText : String := String.ofList (pets.flatMap Value.write)

/-- The fields come in the order of the values, and the schemas in the other one. -/
theorem salvage_fields_and_json_pets :
    ∃ schemas, salvage ⟨.json, none, .naive, 100⟩ "pets.json" (some petsText.toUTF8) =
        .ok (.json pets 0 schemas) ∧
      (∀ s ∈ schemas, ∃ fs, s.fieldList = .ok fs) ∧
      ∃ lists, HaveFields schemas lists ∧
        lists.flatten.Perm [⟨"1", "embed", false, false, []⟩, ⟨"a", "TEXT", false, false, []⟩] := by
  have hsize : petsText.toUTF8.size ≤ 100 := by decide +kernel
  have htext : Text.decode petsText.toUTF8 = some petsText := by decide +kernel
  have hextract : extract petsText.toList = .ok ⟨pets, 0, .wholeText⟩ := by decide +kernel
  have hvalues : ∀ v ∈ pets, ∃ fields, GivesFields v fields := by
    simp [pets, GivesFields, fieldsKey]
  have hfields : salvage ⟨.fields, none, .naive, 100⟩ "pets.json" (some petsText.toUTF8) =
      .ok (.fields [⟨"1", "embed", false, false, []⟩, ⟨"a", "TEXT", false, false, []⟩]) := by
    rw [salvage_of_decode hsize htext, recoverText_fields rfl hextract]
    rfl
  obtain ⟨schemas, hjson, hiff, hok, -⟩ := salvage_fields_and_json
    (o := ⟨.json, none, .naive, 100⟩) hsize htext hextract hvalues "pets.json"
  obtain ⟨lists, lists', hlists, -, hschemas, hperm⟩ := hok _ hfields
  rw [← Salvaged.fields.inj hlists] at hperm
  exact ⟨schemas, hjson, hiff.mp ⟨_, hfields⟩, lists', hschemas, hperm⟩

end Salvage
