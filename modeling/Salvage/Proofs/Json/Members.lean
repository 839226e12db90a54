import Mathlib.Data.List.Basic
import Mathlib.Data.List.Nodup
import Salvage.Json.Basic

/-! # Members of an object

Inserting keeps every key once, at the place where it came first. Which entry a key ends
up with does not depend on the values. Taking a key out leaves the other entries, in another
order.
-/

namespace Salvage.Json.Members

variable {α β : Type}

theorem keys_insert (key : String) (value : α) (ms : List (String × α)) :
    (insert key value ms).map Prod.fst =
      if key ∈ ms.map Prod.fst then ms.map Prod.fst else ms.map Prod.fst ++ [key] := by
  fun_induction insert key value ms with
  | case1 => simp
  | case2 => simp
  | case3 k v rest hne ih =>
    simp only [List.map_cons, ih, List.mem_cons, Ne.symm hne, false_or]
    split <;> simp

/-- Inserting entries adds the keys that are not there yet, each at its first place. -/
theorem keys_foldl_insert (es ms : List (String × α)) :
    (es.foldl (fun ms (k, v) => insert k v ms) ms).map Prod.fst =
      ms.map Prod.fst ++ ((es.map Prod.fst).filter (· ∉ ms.map Prod.fst)).eraseDups := by
  induction es generalizing ms with
  | nil => simp
  | cons e es ih =>
    obtain ⟨key, value⟩ := e
    rw [List.foldl_cons, ih, keys_insert, List.map_cons]
    by_cases h : key ∈ ms.map Prod.fst
    · rw [if_pos h, List.filter_cons_of_neg (by simpa using h)]
    · rw [if_neg h, List.filter_cons_of_pos (by simpa using h), List.eraseDups_cons,
        List.filter_filter, List.append_assoc, List.singleton_append]
      have hkey (k : String) : decide (k ∉ ms.map Prod.fst ++ [key]) =
          (!k == key && decide (k ∉ ms.map Prod.fst)) := by
        rw [Bool.eq_iff_iff]
        simp [and_comm]
      simp only [hkey]

theorem keys_ofList (es : List (String × α)) :
    (ofList es).map Prod.fst = (es.map Prod.fst).eraseDups := by
  simpa [ofList] using keys_foldl_insert es []

/-- Changes the values by a function of key and value. -/
def mapValues (f : String → α → β) (ms : List (String × α)) : List (String × β) :=
  ms.map fun (k, v) => (k, f k v)

@[simp] theorem keys_mapValues (f : String → α → β) (ms : List (String × α)) :
    (mapValues f ms).map Prod.fst = ms.map Prod.fst := by
  simp [mapValues]

theorem mapValues_insert (f : String → α → β) (key : String) (value : α)
    (ms : List (String × α)) :
    mapValues f (insert key value ms) = insert key (f key value) (mapValues f ms) := by
  fun_induction insert key value ms with
  | case1 => rfl
  | case2 => simp [mapValues, insert]
  | case3 k v rest hne ih => simpa [mapValues, insert, hne] using ih

theorem mapValues_ofList (f : String → α → β) (es : List (String × α)) :
    mapValues f (ofList es) = ofList (mapValues f es) := by
  have hfold (ms : List (String × α)) :
      mapValues f (es.foldl (fun ms (k, v) => insert k v ms) ms) =
        (mapValues f es).foldl (fun ms (k, v) => insert k v ms) (mapValues f ms) := by
    induction es generalizing ms with
    | nil => rfl
    | cons e es ih => rw [List.foldl_cons, ih, mapValues_insert]; rfl
  exact hfold []

theorem lookup_mapValues (f : String → α → β) (key : String) (ms : List (String × α)) :
    (mapValues f ms).lookup key = (ms.lookup key).map (f key) := by
  induction ms with
  | nil => rfl
  | cons e ms ih =>
    obtain ⟨k, v⟩ := e
    by_cases h : key = k
    · subst h
      simp [mapValues]
    · have hne : (key == k) = false := by simpa using h
      simpa [mapValues, List.lookup_cons, hne] using ih

/-! ## Taking a key out -/

/-- No key has two entries. -/
def Distinct (ms : List (String × α)) : Prop := (ms.map Prod.fst).Nodup

/-- The entries but those of a key. -/
def without (key : String) (ms : List (String × α)) : List (String × α) :=
  ms.filter fun e => e.1 ≠ key

theorem distinct_cons_iff {e : String × α} {ms : List (String × α)} :
    Distinct (e :: ms) ↔ (∀ d ∈ ms, d.1 ≠ e.1) ∧ Distinct ms := by
  simp only [Distinct, List.map_cons, List.nodup_cons, List.mem_map, not_exists, not_and]

theorem Distinct.without {ms : List (String × α)} (h : Distinct ms) (key : String) :
    Distinct (without key ms) :=
  List.Nodup.sublist (List.filter_sublist.map Prod.fst) h

theorem Distinct.perm {ms ns : List (String × α)} (h : Distinct ms) (hp : ns.Perm ms) :
    Distinct ns :=
  (hp.map Prod.fst).nodup_iff.mpr h

theorem without_eq_self {key : String} {ms : List (String × α)} (h : ∀ e ∈ ms, e.1 ≠ key) :
    without key ms = ms :=
  List.filter_eq_self.mpr fun e he => by simpa using h e he

/-- The last entry moves to the front, and none is lost. -/
theorem perm_cons_dropLast {last : String × α} {ms : List (String × α)}
    (h : ms.getLast? = some last) : (last :: ms.dropLast).Perm ms := by
  obtain ⟨front, rfl⟩ := List.getLast?_eq_some_iff.mp h
  rw [List.dropLast_concat]
  exact (List.perm_append_singleton last front).symm

theorem perm_swapErase {ms : List (String × α)} (h : Distinct ms) (key : String) :
    (swapErase key ms).Perm (without key ms) := by
  induction ms with
  | nil => exact .nil
  | cons e ms ih =>
    obtain ⟨k, v⟩ := e
    obtain ⟨hother, hms⟩ := distinct_cons_iff.mp h
    by_cases hk : k = key
    · -- No other entry has the key, so the rest is kept as a whole.
      subst hk
      have hrest : without k ((k, v) :: ms) = ms :=
        (List.filter_cons_of_neg (by simp)).trans (without_eq_self hother)
      rw [swapErase, if_pos rfl, hrest]
      cases hlast : ms.getLast? with
      | none =>
        obtain rfl := List.getLast?_eq_none_iff.mp hlast
        exact .nil
      | some last => exact perm_cons_dropLast hlast
    · rw [swapErase, if_neg hk, without, List.filter_cons_of_pos (by simpa using hk)]
      exact (ih hms).cons _

end Salvage.Json.Members
