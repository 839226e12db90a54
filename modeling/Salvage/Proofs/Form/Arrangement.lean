import Mathlib.Data.List.Forall2
import Mathlib.Data.List.Perm.Basic
import Salvage.Proofs.Form.Rereading
import Salvage.Proofs.Text.Word

/-! # The order of schemas

Every object at the top of the values or in a list there has its schema, under its own id or one
that its place among the objects gives it. Schemas that refer to no other come first. Sorting by
that and then by place determines the order.
-/

namespace Salvage.Form

open Json Text

variable {entry v : Value} {ms : Members} {s t : String} {stem : String}

/-! ## Objects -/

/-- The objects that a value holds: itself, or those in a list. -/
def objectsIn : Value → List Members
  | .object ms => [ms]
  | .array items => items.filterMap fun
    | .object ms => some ms
    | _ => none
  | _ => []

theorem objects_eq (vs : List Value) : objects vs = vs.flatMap objectsIn := by
  have hitem : (fun v : Value => if v.isObject then some v.members else none) = fun
      | .object ms => some ms
      | _ => none := by
    funext v
    cases v <;> rfl
  rw [objects, hitem, List.filterMap_flatMap]
  congr 1
  funext v
  cases v <;> rfl

/-! ## Ids -/

/-- The id of the object that has `n` others in front of it. -/
inductive HasId (stem : String) (n : ℕ) (ms : Members) : String → Prop where
  | own {id : String} (h : ms.lookup idKey = some (.string id)) (hne : id ≠ "") :
      HasId stem n ms id
  | generated (h : ∀ id, ms.lookup idKey = some (.string id) → id = "") :
      HasId stem n ms (stem ++ "_" ++ toString (n + 1))

theorem hasId_ofMembers (stem : String) (n : ℕ) (ms : Members) :
    HasId stem n ms (Schema.ofMembers (fallbackId stem n) ms).id := by
  rw [Schema.ofMembers]
  cases h : Schema.ownId? ms with
  | some id =>
    obtain ⟨hid, hne⟩ := Schema.ownId?_eq_some_iff.mp h
    exact .own hid hne
  | none =>
    refine .generated fun id hid => ?_
    by_contra hne
    rw [Schema.ownId?_eq_some_iff.mpr ⟨hid, hne⟩] at h
    exact absurd h (by simp)

theorem generatedId_injective (stem : String) :
    Function.Injective fun n : ℕ => stem ++ "_" ++ toString (n + 1) := by
  intro m n h
  have htext : toString (m + 1) = toString (n + 1) := (String.append_right_inj _).mp h
  rw [Nat.toString_eq_ofList_toDigits, Nat.toString_eq_ofList_toDigits, String.ofList_inj] at htext
  have hnumber := congrArg (Nat.ofDigitChars 10 · 0) htext
  simp only [Nat.ofDigitChars_ten_toDigits] at hnumber
  exact Nat.succ.inj hnumber

/-! ## References -/

/-- What describes the fields in an object or in a list. No other value describes any. -/
def entriesIn : Value → List Value
  | .object ms => ms.map Prod.snd
  | .array vs => vs
  | _ => []

/-- The type that an entry gives. Its second name counts where nothing stands under the first. -/
inductive GivesType (entry : Value) (t : String) : Prop where
  | first (h : entry.members.lookup "fieldType" = some (.string t))
  | second (hnone : ∀ v, entry.members.lookup "fieldType" = some v → v = .null)
      (h : entry.members.lookup "type" = some (.string t))

/-- The types of fields that need another schema, in small letters. -/
def referenceWords : List (List Char) := ["embed".toList, "ref_pick_list".toList]

/-- An object of which some field has a type that needs another schema. -/
def RefersToSchema (ms : Members) : Prop :=
  ∃ fields, ms.lookup fieldsKey = some fields ∧ ∃ entry ∈ entriesIn fields,
    ∃ t, GivesType entry t ∧ lower t.toList ∈ referenceWords

theorem isWord_eq (s word : List Char) : isWord s word = (lower s == lower word) := by
  rw [Bool.eq_iff_iff, isWord_iff, beq_iff_eq]

theorem refersToSchema_ofName_iff :
    (FieldKind.ofName t).refersToSchema = true ↔ lower t.toList ∈ referenceWords := by
  have hkind : FieldKind.ofName t =
      (FieldKind.known.find? fun k => lower t.toList == lower k.name.toList).getD (.other t) := by
    simp only [FieldKind.ofName, isWord_eq]
  rw [hkind]
  -- There are finitely many known kinds, and the words are small letters already.
  constructor
  · intro h
    cases hfind : FieldKind.known.find? fun k => lower t.toList == lower k.name.toList with
    | none => simp [hfind, FieldKind.refersToSchema] at h
    | some k =>
      have hname : lower t.toList = lower k.name.toList := by simpa using List.find?_some hfind
      have hall : ∀ k ∈ FieldKind.known, k.refersToSchema = true →
          lower k.name.toList ∈ referenceWords := by decide
      rw [hname]
      exact hall k (List.mem_of_find?_eq_some hfind) (by simpa [hfind] using h)
  · intro h
    have hall : ∀ word ∈ referenceWords, ((FieldKind.known.find? fun k =>
        word == lower k.name.toList).getD (.other t)).refersToSchema = true := by
      intro word hword
      simp only [referenceWords, List.mem_cons, List.not_mem_nil, or_false] at hword
      rcases hword with rfl | rfl <;> rfl
    exact hall _ h

theorem firstNonNull_cons_of_lookup {key : String} (h : ms.lookup key = some v) (hv : v ≠ .null)
    (keys : List String) : firstNonNull ms (key :: keys) = some v := by
  have hnull : v.isNull = false := by cases v <;> simp_all [Value.isNull]
  simp [firstNonNull, h, hnull]

theorem firstNonNull_cons_of_null {key : String} (h : ∀ v, ms.lookup key = some v → v = .null)
    (keys : List String) : firstNonNull ms (key :: keys) = firstNonNull ms keys := by
  cases hv : ms.lookup key with
  | none => simp [firstNonNull, hv]
  | some v =>
    obtain rfl := h v hv
    simp [firstNonNull, hv, show Value.null.isNull = true from rfl]

theorem firstNonNull_singleton_iff {key : String} :
    (firstNonNull ms [key]).bind Value.string? = some t ↔
      ms.lookup key = some (.string t) := by
  by_cases h : ∀ v, ms.lookup key = some v → v = .null
  · rw [firstNonNull_cons_of_null h]
    refine iff_of_false (by simp [firstNonNull]) fun ht => ?_
    exact absurd (h _ ht) (by simp)
  · push Not at h
    obtain ⟨v, hv, hne⟩ := h
    rw [firstNonNull_cons_of_lookup hv hne, hv, Option.bind_some, string?_eq_some_iff,
      Option.some.injEq]

theorem givesType_iff :
    (firstNonNull entry.members typeAliases).bind Value.string? = some t ↔ GivesType entry t := by
  rw [typeAliases]
  by_cases h : ∀ v, entry.members.lookup "fieldType" = some v → v = .null
  · rw [firstNonNull_cons_of_null h, firstNonNull_singleton_iff]
    refine ⟨.second h, ?_⟩
    rintro (ht | ⟨-, ht⟩)
    · exact absurd (h _ ht) (by simp)
    · exact ht
  · have hnull := h
    push Not at h
    obtain ⟨v, hv, hne⟩ := h
    rw [firstNonNull_cons_of_lookup hv hne, Option.bind_some, string?_eq_some_iff]
    constructor
    · rintro rfl
      exact .first hv
    · rintro (ht | ⟨hnone, -⟩)
      · exact Option.some.inj (hv.symm.trans ht)
      · exact absurd hnone hnull

theorem refersToSchema_kind_iff (key : Option String) (entry : Value) :
    (Field.ofEntry key entry).kind.refersToSchema = true ↔
      ∃ t, GivesType entry t ∧ lower t.toList ∈ referenceWords := by
  rw [Field.kind, refersToSchema_ofName_iff, Field.ofEntry]
  simp only
  cases h : (firstNonNull entry.members typeAliases).bind Value.string? with
  | none =>
    refine iff_of_false (by decide) ?_
    rintro ⟨t, ht, -⟩
    rw [givesType_iff.mpr ht] at h
    exact absurd h (by simp)
  | some t =>
    constructor
    · exact fun hword => ⟨t, givesType_iff.mp h, hword⟩
    · rintro ⟨u, hu, hword⟩
      rw [givesType_iff.mpr hu] at h
      rwa [← Option.some.inj h]

theorem Schema.refersToSchema_iff (s : Schema) :
    s.refersToSchema = true ↔
      ∃ entry ∈ entriesIn s.fields, ∃ t, GivesType entry t ∧ lower t.toList ∈ referenceWords := by
  rw [Schema.refersToSchema, Schema.fieldList]
  cases s.fields with
  | object ms =>
    simp only [readFields, entriesIn, List.any_map, List.any_eq_true, Function.comp_apply,
      refersToSchema_kind_iff, List.mem_map, exists_exists_and_eq_and]
  | array vs => simp [readFields, entriesIn, refersToSchema_kind_iff]
  | _ => simp [readFields, entriesIn]

theorem refersToSchema_ofMembers_iff (fallback : String) (ms : Members) :
    (Schema.ofMembers fallback ms).refersToSchema = true ↔ RefersToSchema ms := by
  rw [Schema.refersToSchema_iff, RefersToSchema, Schema.ofMembers, Schema.describedFields]
  cases h : ms.lookup fieldsKey with
  | none => simp [entriesIn]
  | some v =>
    cases v <;> simp [entriesIn]

instance (ms : Members) : Decidable (RefersToSchema ms) :=
  decidable_of_iff _ (refersToSchema_ofMembers_iff "" ms)

/-! ## The order -/

/-- The first object goes before the second one: it refers to no schema and the other one does,
or it stands in front of the other one and both do or neither does. -/
def Precedes (a b : Members × ℕ) : Prop :=
  ¬RefersToSchema a.1 ∧ RefersToSchema b.1 ∨
    (RefersToSchema a.1 ↔ RefersToSchema b.1) ∧ a.2 < b.2

/-- Each of the objects once, with its place among them, in the order of their schemas. -/
structure IsArrangement (objs : List Members) (order : List (Members × ℕ)) : Prop where
  perm : order.Perm objs.zipIdx
  pairwise : order.Pairwise Precedes

/-- The schema is read from the object, and has an id that the object or its place gives. -/
structure IsSchemaOf (stem : String) (x : Members × ℕ) (s : Schema) : Prop where
  hasId : HasId stem x.2 x.1 s.id
  ofValue_eq : Schema.ofValue s.id (.object x.1) = .ok s

theorem isSchemaOf_ofMembers (stem : String) (x : Members × ℕ) :
    IsSchemaOf stem x (.ofMembers (fallbackId stem x.2) x.1) where
  hasId := hasId_ofMembers stem x.2 x.1
  ofValue_eq := by
    rw [Schema.ofValue, Schema.ofMembers, Schema.ofMembers]
    cases Schema.ownId? x.1 <;> rfl

theorem pairwise_zipIdx {α : Type} (l : List α) (k : ℕ) :
    (l.zipIdx k).Pairwise fun a b => a.2 < b.2 := by
  induction l generalizing k with
  | nil => simp
  | cons a l ih =>
    refine List.pairwise_cons.mpr ⟨fun b hb => ?_, ih (k + 1)⟩
    exact (List.mem_zipIdx (x := b.1) (i := b.2) hb).1

/-- The objects that refer to no schema, and behind them those that do. -/
def arrange (objs : List Members) : List (Members × ℕ) :=
  objs.zipIdx.filter (fun x => ¬RefersToSchema x.1) ++
    objs.zipIdx.filter (fun x => RefersToSchema x.1)

/-- Objects that are alike in their references go by their places. -/
theorem pairwise_precedes {q : Members × ℕ → Prop} [DecidablePred q]
    (hq : ∀ a b, q a → q b → (RefersToSchema a.1 ↔ RefersToSchema b.1)) (objs : List Members) :
    (objs.zipIdx.filter (fun x => q x)).Pairwise Precedes := by
  refine ((pairwise_zipIdx objs 0).filter _).imp_of_mem fun ha hb hlt => ?_
  have ha' : q _ := of_decide_eq_true (List.mem_filter.mp ha).2
  have hb' : q _ := of_decide_eq_true (List.mem_filter.mp hb).2
  exact .inr ⟨hq _ _ ha' hb', hlt⟩

theorem isArrangement_arrange (objs : List Members) : IsArrangement objs (arrange objs) where
  perm := by
    have hperm := List.filter_append_perm (fun x : Members × ℕ => ¬RefersToSchema x.1) objs.zipIdx
    simpa [arrange] using hperm
  pairwise := by
    refine List.pairwise_append.mpr ⟨?_, ?_, ?_⟩
    · exact pairwise_precedes (fun _ _ => iff_of_false) objs
    · exact pairwise_precedes (fun _ _ => iff_of_true) objs
    · intro a ha b hb
      have hleaf := (List.mem_filter.mp ha).2
      have hrefers := (List.mem_filter.mp hb).2
      exact .inl ⟨by simpa using hleaf, by simpa using hrefers⟩

theorem Precedes.asymm {a b : Members × ℕ} (hab : Precedes a b) : ¬Precedes b a := by
  unfold Precedes at hab ⊢
  have hlt := lt_asymm (a := a.2) (b := b.2)
  tauto

/-- There is one such order. -/
theorem IsArrangement.eq {objs : List Members} {order order' : List (Members × ℕ)}
    (h : IsArrangement objs order) (h' : IsArrangement objs order') : order = order' :=
  List.Perm.eq_of_pairwise (fun _ _ _ _ hab hba => absurd hba hab.asymm) h.pairwise h'.pairwise
    (h.perm.trans h'.perm.symm)

theorem referrersLast_schemasIn (stem : String) (vs : List Value) :
    referrersLast (schemasIn stem vs) = (arrange (vs.flatMap objectsIn)).map fun x =>
      .ofMembers (fallbackId stem x.2) x.1 := by
  rw [schemasIn, List.mapIdx_eq_zipIdx_map, objects_eq, referrersLast, List.filter_map,
    List.filter_map, arrange, List.map_append]
  have hrefers : ∀ x : Members × ℕ, (Schema.ofMembers (fallbackId stem x.2) x.1).refersToSchema =
      decide (RefersToSchema x.1) := fun x => by
    rw [Bool.eq_iff_iff, refersToSchema_ofMembers_iff, decide_eq_true_iff]
  simp only [Function.comp_def, hrefers, decide_not]

/-- The schemas are those of the objects, each with its own id or one that tells its place, in
the one order that has schemas without references first and is that of the values else. -/
theorem existsUnique_isArrangement (stem : String) (vs : List Value) :
    (Function.Injective fun n : ℕ => stem ++ "_" ++ toString (n + 1)) ∧
      ∃! order, IsArrangement (vs.flatMap objectsIn) order ∧
        List.Forall₂ (IsSchemaOf stem) order (referrersLast (schemasIn stem vs)) := by
  have horder := isArrangement_arrange (vs.flatMap objectsIn)
  refine ⟨generatedId_injective stem, _, ⟨horder, ?_⟩, fun order h => h.1.eq horder⟩
  rw [referrersLast_schemasIn, List.forall₂_map_right_iff]
  exact List.forall₂_same.mpr fun x _ => isSchemaOf_ofMembers stem x

-- A type in small letters, an object without an id, and a value that is no object.
example : (referrersLast (schemasIn "gen" [.array [.object [("formId", .string "a"),
    ("fields", .array [.object [("type", .string "embed")]])], .object []],
    .number (.integer 7), .object [("formId", .string "c")]])).map (·.id) =
    ["gen_2", "c", "a"] := by decide +kernel

end Salvage.Form
