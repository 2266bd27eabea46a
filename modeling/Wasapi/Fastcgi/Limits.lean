import Wasapi.Fastcgi.Dispatch
import Wasapi.Fastcgi.Invariants

/-!
# Limits on the size of a request

`params_bytes` and `body_bytes` count what has been stored, and a record that would carry one of
them past its limit fails the request. The constructor puts numbers into `env`, and PARAMS puts
strings, so the entries that came from PARAMS are the strings. A name that comes twice is counted
twice and stored once, which is why `params_bytes` is only a bound on them.

The sums are taken in `size_t`. A record is shorter than 2¹⁶, so below 2⁶³ they do not wrap.
-/

namespace Wasapi

/-! ## The strings of an environment

`params_bytes` is compared with what the strings of `env` add up to. Assigning a string adds no more
than its name and its value, and less when the name was there before. -/

namespace DynamicVariable

/-- What a field counts if it holds a string. -/
def fieldSize : Bytes × DynamicVariable → ℕ
  | (name, string value) => name.length + value.length
  | _ => 0

def fieldsSize (o : List (Bytes × DynamicVariable)) : ℕ := (o.map fieldSize).sum

/-- The summed lengths of the names and values of the strings in `env`. -/
def stringsSize : DynamicVariable → ℕ
  | object o => fieldsSize o
  | _ => 0

private theorem fieldsSize_cons (f : Bytes × DynamicVariable) (o : List (Bytes × DynamicVariable)) :
    fieldsSize (f :: o) = fieldSize f + fieldsSize o := by
  rw [fieldsSize, List.map_cons, List.sum_cons, fieldsSize]

private theorem fieldsSize_setField_le (key : Bytes) (value : DynamicVariable)
    (o : List (Bytes × DynamicVariable)) :
    fieldsSize (setField key value o) ≤ fieldsSize o + fieldSize (key, value) := by
  induction o with
  | nil =>
    rw [setField, fieldsSize_cons]
    omega
  | cons f o ih =>
    obtain ⟨k, v⟩ := f
    rw [setField]
    split
    · next hk =>
      subst hk
      rw [fieldsSize_cons, fieldsSize_cons]
      omega
    · rw [fieldsSize_cons, fieldsSize_cons]
      omega

private theorem stringsSize_assign_le (env : DynamicVariable) (key : Bytes)
    (value : DynamicVariable) :
    stringsSize (env.assign key value) ≤ stringsSize env + fieldSize (key, value) := by
  cases env with
  | object o => exact fieldsSize_setField_le key value o
  | _ => exact fieldsSize_setField_le key value []

/-- A field that is overwritten with something no longer. -/
theorem fieldsSize_setField_of_lookup {key : Bytes} {value value' : DynamicVariable}
    {o : List (Bytes × DynamicVariable)} (h : o.lookup key = some value)
    (hle : fieldSize (key, value') ≤ fieldSize (key, value)) :
    fieldsSize (setField key value' o) ≤ fieldsSize o := by
  induction o with
  | nil => cases h
  | cons f o ih =>
    obtain ⟨k, v⟩ := f
    rw [lookup_field] at h
    rw [setField]
    by_cases hk : key = k
    · subst hk
      rw [if_pos rfl, Option.some.injEq] at h
      subst h
      rw [if_pos rfl, fieldsSize_cons, fieldsSize_cons]
      omega
    · rw [if_neg hk] at h
      have := ih h
      rw [if_neg (Ne.symm hk), fieldsSize_cons, fieldsSize_cons]
      omega

theorem stringsSize_assign_of_find {env : DynamicVariable} {key : Bytes}
    {value value' : DynamicVariable} (h : env.find key = some value)
    (hle : fieldSize (key, value') ≤ fieldSize (key, value)) :
    stringsSize (env.assign key value') ≤ stringsSize env := by
  cases env with
  | object o => exact fieldsSize_setField_of_lookup h hle
  | _ => cases h

end DynamicVariable

namespace Fastcgi

open DynamicVariable

variable {limits : Limits}

/-! ## Within the limits

The sum is compared with the limit before anything is stored, so a pair or a piece of the body that
would pass it leaves no trace but the failure. That the addition does not wrap takes a bound on the
length of a record, which the wire format gives. -/

structure WithinLimits (limits : Limits) (c : RequestCore) : Prop where
  params : c.paramsBytes ≤ limits.maxParamsBytes
  stdin : c.bodyBytes ≤ limits.maxStdinBytes
  body : c.body.length = c.bodyBytes
  env : stringsSize c.env ≤ c.paramsBytes

/-- **Every record keeps its request within the limits.** -/
theorem WithinLimits.recordBody (hparams : limits.maxParamsBytes < 2 ^ 63)
    (hstdin : limits.maxStdinBytes < 2 ^ 63) {rec : Record}
    {body : RequestCore → Bytes → RequestCore × Bytes} (hbody : recordBody limits rec = some body)
    {c : RequestCore} (out : Bytes) (h : WithinLimits limits c) :
    WithinLimits limits (body c out).1 := by
  refine recordBody_invariant (Q := WithinLimits limits) hbody ?_ ?_ ?_ c out h
  · exact fun c f _ h ↦ ⟨h.params, h.stdin, h.body, h.env⟩
  · intro c name value _ hshort hfits h
    have hparams' := h.params
    have hsize : sizeT (c.paramsBytes + name.length + value.length)
        = c.paramsBytes + name.length + value.length := sizeT_of_lt (by omega)
    refine ⟨hfits, h.stdin, h.body, ?_⟩
    calc stringsSize (c.env.assign name (.string value))
        ≤ stringsSize c.env + (name.length + value.length) := stringsSize_assign_le _ _ _
      _ ≤ c.paramsBytes + (name.length + value.length) := Nat.add_le_add_right h.env _
      _ = sizeT (c.paramsBytes + name.length + value.length) := by rw [hsize, add_assoc]
  · intro c content _ hshort hfits h
    have hstdin' := h.stdin
    have hsize : sizeT (c.bodyBytes + content.length) = c.bodyBytes + content.length :=
      sizeT_of_lt (by omega)
    refine ⟨h.params, hfits, ?_, h.env⟩
    simp only [hsize]
    rw [List.length_append, h.body]

/-! ## Failed requests

A failed request is still in the map and still finds its records, so it has to be shown that they
store nothing. The arena behind it is given back by the sweep, not by the decoder. -/

/-- The request has failed, with this much stored. -/
structure FailedWith (c₀ c : RequestCore) : Prop where
  failed : c.flags.failed = true
  env : c.env = c₀.env
  body : c.body = c₀.body
  paramsBytes : c.paramsBytes = c₀.paramsBytes
  bodyBytes : c.bodyBytes = c₀.bodyBytes

/-- **Nothing is stored in a failed request**, and it is not ready. -/
theorem withholds_failedWith (limits : Limits) (c₀ : RequestCore) :
    Withholds limits (FailedWith c₀) := by
  constructor
  · intro rec body hbody c out h
    refine recordBody_invariant (Q := FailedWith c₀) hbody ?_ ?_ ?_ c out h
    · exact fun c f hgrow h ↦ ⟨hgrow.failed h.failed, h.env, h.body, h.paramsBytes, h.bodyBytes⟩
    · intro c name value hfailed _ _ h
      exact absurd (hfailed.symm.trans h.failed) Bool.false_ne_true
    · intro c content hfailed _ _ h
      exact absurd (hfailed.symm.trans h.failed) Bool.false_ne_true
  · exact fun h ↦ isReady_of_failed h.failed

end Fastcgi

end Wasapi
