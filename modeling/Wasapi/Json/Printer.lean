import Wasapi.Json.Numbers

/-!
# The JSON printer

`to_json` and the functions it calls. An object is printed in the order of its list of fields, which
stands for the order the map is iterated in.

The depth and the indentation are of type `int`. A value that does not fit one has no text: the
source's multiplication overflows there, which C++ leaves undefined.
-/

namespace Wasapi.Json

/-- A lower case hexadecimal digit. -/
def hexDigit (n : ℕ) : UInt8 := UInt8.ofNat (if n < 10 then 48 + n else 87 + n)

/-- What the switch of `json_escape` appends for one byte. -/
def escapeByte (ch : UInt8) : Bytes :=
  if ch = 34 then [92, 34]
  else if ch = 92 then [92, 92]
  else if ch = 8 then [92, 98]
  else if ch = 12 then [92, 102]
  else if ch = 10 then [92, 110]
  else if ch = 13 then [92, 114]
  else if ch = 9 then [92, 116]
  else if ch < 0x20 then
    let n := ch.toNat
    [92, 117, hexDigit (n / 4096 % 16), hexDigit (n / 256 % 16), hexDigit (n / 16 % 16),
      hexDigit (n % 16)]
  else [ch]

def jsonEscape (s : Bytes) : Bytes := 34 :: (s.flatMap escapeByte ++ [34])

/-- A computation in `int`. -/
def toInt (n : ℕ) : Option ℕ := if n < 2 ^ 31 then some n else none

section

variable (pretty : Bool) (indent : ℕ)

/-- `indent_fn` -/
def indentFn (d : ℕ) : Option Bytes :=
  if pretty then (toInt (d * indent)).map fun n ↦ List.replicate n 32 else some []

def newline : Bytes := if pretty then [10] else []

mutual

def toJsonInner : ℕ → DynamicVariable → Option Bytes
  | _, .null => some (ascii "null")
  | _, .bool b => some (if b then ascii "true" else ascii "false")
  | _, .number num => some (formatNumber num)
  | _, .string s => some (jsonEscape s)
  | depth, .array a =>
    if a.isEmpty then some [91, 93]
    else do
      let depth' ← toInt (depth + 1)
      let items ← itemsText depth' a
      let ind ← indentFn pretty indent depth
      return 91 :: (newline pretty ++ items ++ ind ++ [93])
  | depth, .object o =>
    if o.isEmpty then some [123, 125]
    else do
      let depth' ← toInt (depth + 1)
      let fields ← fieldsText depth' o
      let ind ← indentFn pretty indent depth
      return 123 :: (newline pretty ++ fields ++ ind ++ [125])

/-- The loop over the items of an array. -/
def itemsText : ℕ → List DynamicVariable → Option Bytes
  | _, [] => some []
  | depth, v :: a => do
    let ind ← indentFn pretty indent depth
    let text ← toJsonInner depth v
    let more ← itemsText depth a
    return ind ++ text ++ (if a.isEmpty then [] else [44]) ++ newline pretty ++ more

/-- The loop over the fields of an object. -/
def fieldsText : ℕ → List (Bytes × DynamicVariable) → Option Bytes
  | _, [] => some []
  | depth, (key, v) :: o => do
    let ind ← indentFn pretty indent depth
    let text ← toJsonInner depth v
    let more ← fieldsText depth o
    return ind ++ jsonEscape key ++ 58 :: (if pretty then [32] else []) ++ text
      ++ (if o.isEmpty then [] else [44]) ++ newline pretty ++ more

end

end

def toJson (v : DynamicVariable) (pretty : Bool) (indent : ℕ) : Option Bytes :=
  toJsonInner pretty indent 0 v

end Wasapi.Json
