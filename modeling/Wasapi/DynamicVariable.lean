import Mathlib

/-!
# Dynamic variables

The tagged value every request field is stored in. A `std::string` holds arbitrary bytes, so a
string is a list of bytes here, and the `double` of a number is the rational it denotes.

An object is an unordered map in the source; here it is a list of fields in insertion order with
no key twice, and nothing below depends on that order.
-/

namespace Wasapi

/-- Octets, and the contents of a `std::string`. -/
abbrev Bytes := List UInt8

/-- The bytes of a literal of the source. -/
def ascii (s : String) : Bytes := s.toList.map fun c ↦ UInt8.ofNat c.toNat

inductive DynamicVariable where
  | null
  | string (s : Bytes)
  | object (o : List (Bytes × DynamicVariable))
  | array (a : List DynamicVariable)
  | number (num : ℚ)
  | bool (b : Bool)

namespace DynamicVariable

/-- `map[key] = value` on the fields of an object. -/
def setField (key : Bytes) (value : DynamicVariable) :
    List (Bytes × DynamicVariable) → List (Bytes × DynamicVariable)
  | [] => [(key, value)]
  | (k, v) :: o => if k = key then (k, value) :: o else (k, v) :: setField key value o

/-- `v[key] = value`: `operator[]` first turns anything but an object into an empty one. -/
def assign (v : DynamicVariable) (key : Bytes) (value : DynamicVariable) : DynamicVariable :=
  match v with
  | object o => object (setField key value o)
  | _ => object (setField key value [])

/-- `if (v.type != OBJECT) v = make_object()` -/
def asObject : DynamicVariable → DynamicVariable
  | object o => object o
  | _ => object []

/-- Only an array takes another element, and a null variable becomes one first. -/
def push (v w : DynamicVariable) : DynamicVariable :=
  match v with
  | array a => array (a ++ [w])
  | null => array [w]
  | v => v

def find (v : DynamicVariable) (key : Bytes) : Option DynamicVariable :=
  match v with
  | object o => o.lookup key
  | _ => none

@[simp] theorem find_asObject (v : DynamicVariable) (key : Bytes) :
    v.asObject.find key = v.find key := by
  cases v <;> rfl

theorem lookup_field (k k' : Bytes) (v : DynamicVariable) (o : List (Bytes × DynamicVariable)) :
    ((k', v) :: o).lookup k = if k = k' then some v else o.lookup k := by
  rw [List.lookup_cons]
  by_cases h : k = k'
  · rw [if_pos h, beq_iff_eq.mpr h]
  · rw [if_neg h, beq_false_of_ne h]

private theorem lookup_setField (o : List (Bytes × DynamicVariable)) (key k : Bytes)
    (value : DynamicVariable) :
    (setField key value o).lookup k = if k = key then some value else o.lookup k := by
  induction o with
  | nil => rw [setField, lookup_field]
  | cons f o ih =>
    obtain ⟨k', v'⟩ := f
    rw [setField]
    by_cases hk : k' = key
    · subst hk
      rw [if_pos rfl, lookup_field, lookup_field]
      by_cases h : k = k' <;> simp [h]
    · rw [if_neg hk, lookup_field, lookup_field, ih]
      by_cases h : k = k'
      · subst h
        rw [if_pos rfl, if_neg hk, if_pos rfl]
      · rw [if_neg h, if_neg h]

@[simp] theorem find_assign_self (v : DynamicVariable) (key : Bytes) (value : DynamicVariable) :
    (v.assign key value).find key = some value := by
  cases v <;> simp only [assign, find, lookup_setField, if_true]

theorem find_assign_of_ne (v : DynamicVariable) {key k : Bytes} (value : DynamicVariable)
    (h : k ≠ key) : (v.assign key value).find k = v.find k := by
  cases v <;> simp only [assign, find, lookup_setField, if_neg h, List.lookup_nil]

/-- Assigning what is there changes nothing, and nothing else does. -/
theorem assign_eq_self_iff (v : DynamicVariable) (key : Bytes) (value : DynamicVariable) :
    v.assign key value = v ↔ v.find key = some value := by
  constructor
  · intro h
    rw [← h, find_assign_self]
  intro h
  cases v with
  | object o =>
    refine congrArg object ?_
    have hlookup : o.lookup key = some value := h
    clear h
    induction o with
    | nil => cases hlookup
    | cons f o ih =>
      obtain ⟨k, v⟩ := f
      rw [lookup_field] at hlookup
      rw [setField]
      by_cases hk : k = key
      · rw [if_pos hk.symm, Option.some.injEq] at hlookup
        rw [if_pos hk, hlookup]
      · rw [if_neg (Ne.symm hk)] at hlookup
        rw [if_neg hk, ih hlookup]
  | _ => cases h

end DynamicVariable

end Wasapi
