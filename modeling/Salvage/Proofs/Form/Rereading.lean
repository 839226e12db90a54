import Salvage.Form.Schema
import Salvage.Proofs.Json.Members

/-! # Reading a written schema

A schema keeps the members of its object that are neither the id nor the fields. Its own value
has those two in front, each key once, and is read as the same schema: the id is not empty, the
fields are not null, and the other members come back in some order.
-/

namespace Salvage.Form

open Json

theorem string?_eq_some_iff {v : Value} {s : String} : v.string? = some s ↔ v = .string s := by
  cases v <;> simp [Value.string?]

theorem fieldsKey_ne_idKey : fieldsKey ≠ idKey := by decide

namespace Schema

/-- The schemas are equal up to the order of their other members. -/
structure Same (s t : Schema) : Prop where
  id_eq : s.id = t.id
  fields_eq : s.fields = t.fields
  extra_perm : s.extra.Perm t.extra

/-- The schema has nothing that reading replaces, and no key twice. -/
structure IsComplete (s : Schema) : Prop where
  id_ne : s.id ≠ ""
  fields_ne : s.fields ≠ .null
  extra_ne : ∀ e ∈ s.extra, e.1 ≠ idKey ∧ e.1 ≠ fieldsKey
  distinct : Members.Distinct s.extra

variable {ms : Members} {fallback : String} {s : Schema}

/-! ## Schemas that are read -/

theorem ownId?_eq_some_iff {id : String} :
    ownId? ms = some id ↔ ms.lookup idKey = some (.string id) ∧ id ≠ "" := by
  rw [ownId?, Option.filter_eq_some_iff, Option.bind_eq_some_iff]
  simp [string?_eq_some_iff]

theorem describedFields_ne_null (ms : Members) : describedFields ms ≠ .null := by
  unfold describedFields
  split
  · simp
  · simp
  · rename_i v hv _
    exact hv

/-- The other members are kept, and no key is taken out twice. -/
theorem perm_extra_ofMembers (hms : Members.Distinct ms) (fallback : String) :
    (ofMembers fallback ms).extra.Perm
      (ms.filter fun e => e.1 ≠ idKey ∧ e.1 ≠ fieldsKey) := by
  have hid := Members.perm_swapErase hms idKey
  -- The second key is taken out of a list in another order, and its keys are distinct still.
  have hdistinct := (hms.without idKey).perm hid
  have hboth : Members.without fieldsKey (Members.without idKey ms) =
      ms.filter fun e => e.1 ≠ idKey ∧ e.1 ≠ fieldsKey := by
    rw [Members.without, Members.without, List.filter_filter]
    simp [and_comm]
  rw [← hboth]
  exact (Members.perm_swapErase hdistinct fieldsKey).trans (hid.filter _)

theorem isComplete_ofMembers (hms : Members.Distinct ms) (hfallback : fallback ≠ "") :
    (ofMembers fallback ms).IsComplete := by
  have hperm := perm_extra_ofMembers hms fallback
  constructor
  case id_ne =>
    rw [ofMembers]
    cases h : ownId? ms with
    | none => exact hfallback
    | some id => exact (ownId?_eq_some_iff.mp h).2
  case fields_ne => exact describedFields_ne_null ms
  case extra_ne =>
    intro e he
    simpa using (List.mem_filter.mp (hperm.mem_iff.mp he)).2
  case distinct =>
    exact Members.Distinct.perm (List.Nodup.sublist (List.filter_sublist.map Prod.fst) hms) hperm

/-! ## Values of schemas -/

theorem IsComplete.distinct_members (hs : s.IsComplete) :
    Members.Distinct s.toValue.members := by
  rw [toValue, Value.members, Members.distinct_cons_iff, Members.distinct_cons_iff]
  refine ⟨fun e he => ?_, fun e he => (hs.extra_ne e he).2, hs.distinct⟩
  rcases List.mem_cons.mp he with rfl | he
  · exact fieldsKey_ne_idKey
  · exact (hs.extra_ne e he).1

theorem IsComplete.same_ofMembers (hs : s.IsComplete) (fallback : String) :
    (ofMembers fallback s.toValue.members).Same s where
  id_eq := by
    have hid : ownId? s.toValue.members = some s.id :=
      ownId?_eq_some_iff.mpr ⟨rfl, hs.id_ne⟩
    rw [ofMembers, hid, Option.getD_some]
  fields_eq := by
    have hfields : s.toValue.members.lookup fieldsKey = some s.fields := by
      have hne : (fieldsKey == idKey) = false := by decide
      simp [toValue, Value.members, List.lookup_cons, hne]
    rw [ofMembers, describedFields, hfields]
    split
    · simp_all
    · rename_i h
      exact absurd (Option.some.inj h) hs.fields_ne
    · rename_i h
      exact (Option.some.inj h).symm
  extra_perm := by
    refine (perm_extra_ofMembers hs.distinct_members fallback).trans (.of_eq ?_)
    rw [toValue, Value.members, List.filter_cons_of_neg (by simp),
      List.filter_cons_of_neg (by simp)]
    exact List.filter_eq_self.mpr fun e he => by simpa using hs.extra_ne e he

/-- The schema of an object has all its other members once, and is read from its own value
whatever the fallback for its id. -/
theorem ofValue_toValue (hms : Members.Distinct ms) (hfallback : fallback ≠ "") :
    ∃ s, ofValue fallback (.object ms) = .ok s ∧
      s.extra.Perm (ms.filter fun e => e.1 ≠ idKey ∧ e.1 ≠ fieldsKey) ∧
      Members.Distinct s.toValue.members ∧
      ∀ fallback', ∃ t, ofValue fallback' s.toValue = .ok t ∧ t.Same s := by
  have hs := isComplete_ofMembers hms hfallback
  exact ⟨_, rfl, perm_extra_ofMembers hms fallback, hs.distinct_members,
    fun fallback' => ⟨_, rfl, hs.same_ofMembers fallback'⟩⟩

/-- The id is empty and the fields are null, and the last member is moved twice. -/
theorem ofValue_toValue_moved :
    Members.Distinct [("fields", Value.null), ("a", .bool true), ("formId", .string ""),
        ("b", .array [])] ∧ "pets" ≠ "" ∧
      ofValue "pets" (.object [("fields", .null), ("a", .bool true), ("formId", .string ""),
        ("b", .array [])]) = .ok ⟨"pets", .object [], [("b", .array []), ("a", .bool true)]⟩ ∧
      ∀ fallback, ∃ t, ofValue fallback (.object [("formId", .string "pets"),
          ("fields", .object []), ("b", .array []), ("a", .bool true)]) = .ok t ∧
        t.Same ⟨"pets", .object [], [("b", .array []), ("a", .bool true)]⟩ := by
  have hms : Members.Distinct [("fields", Value.null), ("a", .bool true),
      ("formId", .string ""), ("b", .array [])] := by
    unfold Members.Distinct
    decide
  have hfallback : "pets" ≠ "" := by decide
  obtain ⟨s, hs, -, -, hread⟩ := ofValue_toValue hms hfallback
  obtain rfl := Except.ok.inj hs
  exact ⟨hms, hfallback, rfl, hread⟩

end Schema

end Salvage.Form
