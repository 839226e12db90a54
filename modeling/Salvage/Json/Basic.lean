import Salvage.Number.Binary64

/-! # JSON values

A value keeps the order of an object's members. A number is an integer of any sign or a
double, and the two are different values even where they are equal numbers.
-/

namespace Salvage.Json

inductive Number where
  | integer (value : Int)
  | float (value : Binary64)
deriving DecidableEq

inductive Value where
  | null
  | bool (b : Bool)
  | number (n : Number)
  | string (s : String)
  | array (items : List Value)
  | object (members : List (String × Value))

/-- The members of an object, keys with their values in order. -/
abbrev Members := List (String × Value)

def Number.isZero : Number → Bool
  | .integer i => i == 0
  | .float x => x.isZero

namespace Value

def isObject : Value → Bool
  | .object _ => true
  | _ => false

def isArray : Value → Bool
  | .array _ => true
  | _ => false

def isNull : Value → Bool
  | .null => true
  | _ => false

/-- The members of an object, and none for any other value. -/
def members : Value → Members
  | .object ms => ms
  | _ => []

def string? : Value → Option String
  | .string s => some s
  | _ => none

/-- The noun for this kind of value, with its article. -/
def noun : Value → String
  | .null => "null"
  | .bool _ => "a boolean"
  | .number _ => "a number"
  | .string _ => "a string"
  | .array _ => "an array"
  | .object _ => "an object"

/-! Equality of values is decided part by part. -/

mutual

def same : Value → Value → Bool
  | .null, .null => true
  | .bool a, .bool b => a == b
  | .number m, .number n => m == n
  | .string s, .string t => s == t
  | .array xs, .array ys => sameItems xs ys
  | .object xs, .object ys => sameMembers xs ys
  | _, _ => false

def sameItems : List Value → List Value → Bool
  | [], [] => true
  | x :: xs, y :: ys => same x y && sameItems xs ys
  | _, _ => false

def sameMembers : List (String × Value) → List (String × Value) → Bool
  | [], [] => true
  | (k, x) :: xs, (l, y) :: ys => k == l && same x y && sameMembers xs ys
  | _, _ => false

end

mutual

theorem same_iff : ∀ v w : Value, v.same w = true ↔ v = w
  | .null, w => by cases w <;> simp [same]
  | .bool _, w => by cases w <;> simp [same]
  | .number _, w => by cases w <;> simp [same]
  | .string _, w => by cases w <;> simp [same]
  | .array xs, w => by cases w <;> simp [same, sameItems_iff xs]
  | .object xs, w => by cases w <;> simp [same, sameMembers_iff xs]

theorem sameItems_iff : ∀ vs ws : List Value, sameItems vs ws = true ↔ vs = ws
  | [], ws => by cases ws <;> simp [sameItems]
  | v :: vs, ws => by cases ws <;> simp [sameItems, same_iff v, sameItems_iff vs]

theorem sameMembers_iff : ∀ ms ns : List (String × Value), sameMembers ms ns = true ↔ ms = ns
  | [], ns => by cases ns <;> simp [sameMembers]
  | (k, v) :: ms, ns => by
    rcases ns with _ | ⟨⟨l, w⟩, ns⟩ <;>
      simp [sameMembers, same_iff v, sameMembers_iff ms]

end

instance : DecidableEq Value := fun v w => decidable_of_iff _ (same_iff v w)

end Value

namespace Members

variable {α : Type}

/-- Sets the value of a key. A new key comes last, a known key keeps its place. -/
def insert (key : String) (value : α) : List (String × α) → List (String × α)
  | [] => [(key, value)]
  | (k, v) :: rest => if k = key then (k, value) :: rest else (k, v) :: insert key value rest

/-- Inserts one after another. -/
def ofList (entries : List (String × α)) : List (String × α) :=
  entries.foldl (fun ms (k, v) => insert k v ms) []

/-- Takes a key out. The last entry moves into its place. -/
def swapErase (key : String) : List (String × α) → List (String × α)
  | [] => []
  | (k, v) :: rest =>
    if k = key then
      match rest.getLast? with
      | none => []
      | some last => last :: rest.dropLast
    else (k, v) :: swapErase key rest

end Members

end Salvage.Json
