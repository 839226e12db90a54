import Mathlib.Data.List.Forall2
import Salvage.Form.Field
import Salvage.Proofs.Json.Members

/-! # Fields under the names of a convention

What is read of a field has no member under a name that reading knows. So a description that
gives its id, its type and its two marks under any of their names, and the other members behind
them, is read as the field itself. Reading once brings all conventions to one form, and reading
that form again changes nothing.
-/

namespace Salvage.Form

open Json

/-- What a description gives under a name that reading knows. -/
inductive Property where
  | id
  | type
  | required
  | unique
deriving DecidableEq, Repr

namespace Property

def all : List Property := [.id, .type, .required, .unique]

def aliases : Property → List String
  | .id => idAliases
  | .type => typeAliases
  | .required => requiredAliases
  | .unique => uniqueAliases

theorem mem_all (p : Property) : p ∈ all := by cases p <;> decide

theorem nodup_aliases (p : Property) : p.aliases.Nodup := by cases p <;> decide

/-- A name tells which property is meant. -/
theorem eq_of_mem_aliases {p q : Property} {name : String} (hp : name ∈ p.aliases)
    (hq : name ∈ q.aliases) : p = q := by
  have hdisjoint : ∀ p ∈ all, ∀ q ∈ all, ∀ name ∈ p.aliases, name ∈ q.aliases → p = q := by decide
  exact hdisjoint p (mem_all p) q (mem_all q) name hp hq

theorem mem_aliases {p : Property} {name : String} (h : name ∈ p.aliases) :
    name ∈ Form.aliases := by
  have hall : ∀ p ∈ all, ∀ name ∈ p.aliases, name ∈ Form.aliases := by decide
  exact hall p (mem_all p) name h

end Property

/-- A choice of one name for each property. -/
structure Convention where
  name : Property → String
  name_mem : ∀ p, name p ∈ p.aliases

namespace Convention

def long : Convention where
  name
    | .id => "fieldId"
    | .type => "fieldType"
    | .required => "isRequired"
    | .unique => "isUnique"
  name_mem p := by cases p <;> decide

def short : Convention where
  name
    | .id => "name"
    | .type => "type"
    | .required => "required"
    | .unique => "unique"
  name_mem p := by cases p <;> decide

theorem name_injective (w : Convention) : Function.Injective w.name := fun p q h =>
  Property.eq_of_mem_aliases (w.name_mem p) (h ▸ w.name_mem q)

end Convention

namespace Field

def property (f : Field) : Property → Value
  | .id => .string f.id
  | .type => .string f.type
  | .required => .bool f.required
  | .unique => .bool f.unique

/-- The properties of the field under the names of a convention, and its other members behind
them. -/
def describe (w : Convention) (f : Field) : Value :=
  .object (Property.all.map (fun p => (w.name p, f.property p)) ++ f.extra)

/-- The value describes the field under some convention. -/
def IsDescription (f : Field) (v : Value) : Prop := ∃ w, v = f.describe w

/-- No member of the field has a name that stands for a property. -/
def IsCanonical (f : Field) : Prop := ∀ e ∈ f.extra, e.1 ∉ aliases

end Field

variable {f : Field} {fs : List Field} {raw : Value} {w : Convention}

/-! ## Fields that are read -/

theorem isCanonical_ofEntry (key : Option String) (entry : Value) :
    (Field.ofEntry key entry).IsCanonical := by
  intro e he
  simpa using (List.mem_filter.mp he).2

theorem isCanonical_of_readFields (h : readFields raw = .ok fs) : ∀ f ∈ fs, f.IsCanonical := by
  unfold readFields at h
  split at h
  · obtain rfl := Except.ok.inj h
    intro f hf
    obtain ⟨⟨key, entry⟩, -, rfl⟩ := List.mem_map.mp hf
    exact isCanonical_ofEntry (some key) entry
  · obtain rfl := Except.ok.inj h
    intro f hf
    obtain ⟨entry, -, rfl⟩ := List.mem_map.mp hf
    exact isCanonical_ofEntry none entry
  · obtain rfl := Except.ok.inj h
    simp
  · simp at h

/-! ## Descriptions are read back -/

theorem lookup_properties (w : Convention) (value : Property → Value) {p : Property}
    {name : String} (hname : name ∈ p.aliases) (ps : List Property) :
    (ps.map fun q => (w.name q, value q)).lookup name =
      if p ∈ ps ∧ name = w.name p then some (value p) else none := by
  induction ps with
  | nil => simp
  | cons q ps ih =>
    rw [List.map_cons, List.lookup_cons]
    by_cases hq : name = w.name q
    · obtain rfl : p = q := Property.eq_of_mem_aliases hname (hq ▸ w.name_mem q)
      simp [hq]
    · rw [show (name == w.name q) = false by simpa using hq, ih]
      by_cases hp : p = q
      · subst hp
        simp [hq]
      · simp [hp]

/-- Under the names of a property stands its value, and it stands there once. -/
theorem lookup_describe (hf : f.IsCanonical) {p : Property} {name : String}
    (hname : name ∈ p.aliases) :
    (f.describe w).members.lookup name =
      if name = w.name p then some (f.property p) else none := by
  have hextra : f.extra.lookup name = none := by
    refine List.lookup_eq_none_iff.mpr fun e he => ?_
    have hne : name ≠ e.1 := by
      rintro rfl
      exact hf e he (Property.mem_aliases hname)
    simpa using hne
  rw [Field.describe, Value.members, List.lookup_append, hextra, Option.or_none,
    lookup_properties w f.property hname]
  simp [Property.mem_all]

theorem filterMap_ite_eq {α β : Type} [DecidableEq α] {a : α} {l : List α} (hl : l.Nodup)
    (ha : a ∈ l) (b : β) : (l.filterMap fun x => if x = a then some b else none) = [b] := by
  obtain ⟨s, t, rfl⟩ := List.append_of_mem ha
  obtain ⟨-, ht, hst⟩ := List.nodup_append.mp hl
  have hs : ∀ x ∈ s, x ≠ a := fun x hx => hst x hx a List.mem_cons_self
  have ht' : ∀ x ∈ t, x ≠ a := by
    rintro x hx rfl
    exact (List.nodup_cons.mp ht).1 hx
  rw [List.filterMap_append, List.filterMap_cons, List.filterMap_eq_nil_iff.mpr (by simpa using hs),
    List.filterMap_eq_nil_iff.mpr (by simpa using ht')]
  simp

/-- All that a description says about a property is the value of the field. -/
theorem filterMap_describe (hf : f.IsCanonical) (w : Convention) (p : Property) :
    (p.aliases.filterMap fun name => (f.describe w).members.lookup name) = [f.property p] := by
  rw [List.filterMap_congr fun name hname => lookup_describe hf hname]
  exact filterMap_ite_eq p.nodup_aliases (w.name_mem p) _

theorem filter_describe (hf : f.IsCanonical) (w : Convention) :
    ((f.describe w).members.filter fun (k, _) => !aliases.contains k) = f.extra := by
  have hproperties : (Property.all.map fun p => (w.name p, f.property p)).filter
      (fun (k, _) => !aliases.contains k) = [] := by
    refine List.filter_eq_nil_iff.mpr fun e he => ?_
    obtain ⟨p, -, rfl⟩ := List.mem_map.mp he
    simpa using Property.mem_aliases (w.name_mem p)
  rw [Field.describe, Value.members, List.filter_append, hproperties, List.nil_append]
  exact List.filter_eq_self.mpr fun e he => by simpa using hf e he

theorem firstNonNull_describe (hf : f.IsCanonical) (w : Convention) (p : Property) :
    firstNonNull (f.describe w).members p.aliases = some (f.property p) := by
  have hnull : (f.property p).isNull = false := by cases p <;> rfl
  rw [firstNonNull, filterMap_describe hf, List.find?_cons_of_pos (by simp [hnull])]

theorem anyYes_describe (hf : f.IsCanonical) (w : Convention) (p : Property) :
    anyYes (f.describe w).members p.aliases = isYes (f.property p) := by
  rw [anyYes, filterMap_describe hf, List.any_cons, List.any_nil, Bool.or_false]

/-- A description is read as its field, whatever key it is stored under. -/
theorem ofEntry_describe (hf : f.IsCanonical) (w : Convention) (key : Option String) :
    Field.ofEntry key (f.describe w) = f := by
  have hid : firstNonNull (f.describe w).members idAliases = some (.string f.id) :=
    firstNonNull_describe hf w .id
  have htype : firstNonNull (f.describe w).members typeAliases = some (.string f.type) :=
    firstNonNull_describe hf w .type
  have hrequired : anyYes (f.describe w).members requiredAliases = f.required :=
    anyYes_describe hf w .required
  have hunique : anyYes (f.describe w).members uniqueAliases = f.unique :=
    anyYes_describe hf w .unique
  rw [Field.ofEntry, hid, htype, hrequired, hunique, filter_describe hf]
  rfl

/-- The members are those of an object, because no two have one name. -/
theorem distinct_describe (hf : f.IsCanonical) (hextra : Members.Distinct f.extra)
    (w : Convention) : Members.Distinct (f.describe w).members := by
  have hkeys : (f.describe w).members.map Prod.fst =
      Property.all.map w.name ++ f.extra.map Prod.fst := by
    rw [Field.describe, Value.members, List.map_append, List.map_map]
    rfl
  rw [Members.Distinct, hkeys]
  refine List.nodup_append.mpr ⟨List.Nodup.map w.name_injective (by decide), hextra, ?_⟩
  rintro _ hname _ hkey rfl
  obtain ⟨p, -, rfl⟩ := List.mem_map.mp hname
  obtain ⟨e, he, heq⟩ := List.mem_map.mp hkey
  exact hf e he (heq ▸ Property.mem_aliases (w.name_mem p))

/-- Fields that were read are read again from any descriptions, each under a convention of its
own. -/
theorem readFields_describe {vs : List Value} (h : readFields raw = .ok fs)
    (hvs : List.Forall₂ Field.IsDescription fs vs) : readFields (.array vs) = .ok fs := by
  -- Nothing else of the first reading counts, so the induction is on the descriptions.
  have hcanonical := isCanonical_of_readFields h
  clear h
  rw [readFields]
  apply congrArg Except.ok
  induction hvs with
  | nil => rfl
  | cons hv _ ih =>
    obtain ⟨w, rfl⟩ := hv
    obtain ⟨hf, hfs⟩ := List.forall_mem_cons.mp hcanonical
    rw [List.map_cons, ofEntry_describe hf, ih hfs]

/-- An entry without members, and one under mixed names with a number for its id. -/
theorem readFields_describe_mixed :
    readFields (.object [("a", .null), ("b", .object [("type", .string "EMBED"),
        ("fieldType", .null), ("name", .number (.integer 7)), ("required", .string "True"),
        ("formula", .string "x")])]) =
      .ok [⟨"a", "TEXT", false, false, []⟩,
        ⟨"7", "EMBED", true, false, [("formula", .string "x")]⟩] ∧
    readFields (.array [
        .object [("name", .string "a"), ("type", .string "TEXT"), ("required", .bool false),
          ("unique", .bool false)],
        .object [("fieldId", .string "7"), ("fieldType", .string "EMBED"),
          ("isRequired", .bool true), ("isUnique", .bool false), ("formula", .string "x")]]) =
      .ok [⟨"a", "TEXT", false, false, []⟩,
        ⟨"7", "EMBED", true, false, [("formula", .string "x")]⟩] := by
  have h : readFields (.object [("a", .null), ("b", .object [("type", .string "EMBED"),
      ("fieldType", .null), ("name", .number (.integer 7)), ("required", .string "True"),
      ("formula", .string "x")])]) = .ok [⟨"a", "TEXT", false, false, []⟩,
        ⟨"7", "EMBED", true, false, [("formula", .string "x")]⟩] := rfl
  exact ⟨h, readFields_describe h (.cons ⟨.short, rfl⟩ (.cons ⟨.long, rfl⟩ .nil))⟩

end Salvage.Form
