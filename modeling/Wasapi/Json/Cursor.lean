import Wasapi.Json.Parser

/-!
# The JSON parser at its cursor

The functions of the parser as the source has them, with a position in a text that stays as it is.
The loops over bytes are functions by the number of bytes that are left. The three functions that
call each other, and the loops of two of them, take a bound on the depth of these calls and turns,
and `none` says that it has been reached; a failure is a result.
-/

namespace Wasapi.Json

structure JsonCursor where
  s : Bytes
  i : ℕ := 0

namespace JsonCursor

/-- `(*c.s)[c.i]` -/
def get (c : JsonCursor) : UInt8 := c.s.getD c.i 0

/-- `c.i += k` -/
def skip (c : JsonCursor) (k : ℕ) : JsonCursor := { c with i := c.i + k }

/-- How many bytes are left. -/
def left (c : JsonCursor) : ℕ := c.s.length - c.i

/-- What is left of the text. -/
def rest (c : JsonCursor) : Bytes := c.s.drop c.i

@[simp] theorem s_skip (c : JsonCursor) (k : ℕ) : (c.skip k).s = c.s := rfl

@[simp] theorem i_skip (c : JsonCursor) (k : ℕ) : (c.skip k).i = c.i + k := rfl

private theorem left_skip (c : JsonCursor) (k : ℕ) : (c.skip k).left = c.left - k := by
  rw [left, left, s_skip, i_skip]
  omega

theorem left_pos {c : JsonCursor} (h : c.i < c.s.length) : 0 < c.left := Nat.sub_pos_of_lt h

theorem left_skip_lt {c : JsonCursor} (h : c.i < c.s.length) : (c.skip 1).left < c.left := by
  rw [left_skip]
  exact Nat.sub_lt (left_pos h) Nat.one_pos

/-- `skip_ws` -/
def skipWs (c : JsonCursor) : JsonCursor :=
  if c.i < c.s.length ∧ isSpace c.get = true then skipWs (c.skip 1) else c
termination_by c.left
decreasing_by exact left_skip_lt (And.left ‹_›)

/-- `match` -/
def matchChar (ch : UInt8) (c : JsonCursor) : Bool × JsonCursor :=
  let c := skipWs c
  if c.i < c.s.length ∧ c.get = ch then (true, c.skip 1) else (false, c)

/-! ## Strings

The loops count down the bytes that are left, which bounds them without changing what they do: a
turn that has nothing left to look at is an error in the source too. -/

/-- The loop over the `k` hexadecimal digits that are left of an escape. -/
def hexLoop : ℕ → ℕ → JsonCursor → Option ℕ × JsonCursor
  | 0, v, c => (some v, c)
  | k + 1, v, c =>
    match hexValue c.get with
    | none => (none, c.skip 1)
    | some d => hexLoop k (v * 16 + d) (c.skip 1)

private theorem left_hexLoop_le (k v : ℕ) (c : JsonCursor) : (hexLoop k v c).2.left ≤ c.left := by
  induction k generalizing v c with
  | zero => exact le_rfl
  | succ k ih =>
    have hskip : (c.skip 1).left ≤ c.left := by
      rw [left_skip]
      exact Nat.sub_le _ _
    rw [hexLoop]
    split
    · exact hskip
    · exact (ih _ _).trans hskip

/-- The loop of `parse_string` behind the opening quote. -/
def stringLoop (out : Bytes) (c : JsonCursor) : Option Bytes × JsonCursor :=
  if c.i < c.s.length then
    let ch := c.get
    let c' := c.skip 1
    if ch = 34 then (some out, c')
    else if ch = 92 then
      if c'.s.length ≤ c'.i then (none, c')
      else
        let esc := c'.get
        let c' := c'.skip 1
        match simpleEscape esc with
        | some b => stringLoop (out ++ [b]) c'
        | none =>
          if esc = 117 then
            if c'.s.length < c'.i + 4 then (none, c')
            else
              match _ : hexLoop 4 0 c' with
              | (none, c'') => (none, c'')
              | (some v, c'') => stringLoop (out ++ codeUnit v) c''
          else (none, c')
    else stringLoop (out ++ [ch]) c'
  else (none, c)
termination_by c.left
decreasing_by
  · rw [left_skip]
    exact (Nat.sub_le _ _).trans_lt (left_skip_lt ‹_›)
  · next hhex =>
    have hle := left_hexLoop_le 4 0 ((c.skip 1).skip 1)
    rw [hhex, left_skip] at hle
    exact (hle.trans (Nat.sub_le _ _)).trans_lt (left_skip_lt ‹_›)
  · exact left_skip_lt ‹_›

def parseString (c : JsonCursor) : Option Bytes × JsonCursor :=
  let c := skipWs c
  if c.s.length ≤ c.i ∨ c.get ≠ 34 then (none, c) else stringLoop [] (c.skip 1)

/-! ## Numbers -/

/-- The loop of `parse_number`: digits, and a point unless there has been one. -/
def numberLoop (dot : Bool) (c : JsonCursor) : JsonCursor :=
  if c.i < c.s.length then
    let ch := c.get
    if isDigit ch then numberLoop dot (c.skip 1)
    else if ch = 46 && !dot then numberLoop true (c.skip 1)
    else c
  else c
termination_by c.left
decreasing_by
  · exact left_skip_lt ‹_›
  · exact left_skip_lt ‹_›

def parseNumber (c : JsonCursor) : Option ℚ × JsonCursor :=
  let c := skipWs c
  let start := c.i
  let c := if c.i < c.s.length ∧ (c.get = 45 ∨ c.get = 43) then c.skip 1 else c
  let c := numberLoop false c
  if start = c.i then (none, c)
  else (stod ((c.s.drop start).take (c.i - start)), c)

/-! ## Values

`parse_value`, `parse_array` and `parse_object` call each other. A bound on the depth of the calls
makes them functions, and that any bound that is large enough gives the same result is proved of
them. -/

mutual

def parseValue : ℕ → JsonCursor → Option (Option DynamicVariable × JsonCursor)
  | 0, _ => none
  | fuel + 1, c =>
    let c := skipWs c
    if c.s.length ≤ c.i then some (none, c)
    else
      let ch := c.get
      if ch = 34 then
        match parseString c with
        | (none, c) => some (none, c)
        | (some tmp, c) => some (some (.string tmp), c)
      else if ch = 123 then parseObject fuel c
      else if ch = 91 then parseArray fuel c
      else if ch = 116 ∧ (c.s.drop c.i).take 4 = ascii "true" then
        some (some (.bool true), c.skip 4)
      else if ch = 102 ∧ (c.s.drop c.i).take 5 = ascii "false" then
        some (some (.bool false), c.skip 5)
      else if ch = 110 ∧ (c.s.drop c.i).take 4 = ascii "null" then some (some .null, c.skip 4)
      else
        match parseNumber c with
        | (none, c) => some (none, c)
        | (some num, c) => some (some (.number num), c)

def parseArray : ℕ → JsonCursor → Option (Option DynamicVariable × JsonCursor)
  | 0, _ => none
  | fuel + 1, c =>
    match matchChar 91 c with
    | (false, c) => some (none, c)
    | (true, c) =>
      match matchChar 93 (skipWs c) with
      | (true, c) => some (some (.array []), c)
      | (false, c) => itemsLoop fuel [] c

/-- The loop of `parse_array`; `a` holds the items so far. -/
def itemsLoop : ℕ → List DynamicVariable → JsonCursor →
    Option (Option DynamicVariable × JsonCursor)
  | 0, _, _ => none
  | fuel + 1, a, c =>
    match parseValue fuel c with
    | none => none
    | some (none, c) => some (none, c)
    | some (some elem, c) =>
      match matchChar 93 (skipWs c) with
      | (true, c) => some (some (.array (a ++ [elem])), c)
      | (false, c) =>
        match matchChar 44 c with
        | (false, c) => some (none, c)
        | (true, c) => itemsLoop fuel (a ++ [elem]) c

def parseObject : ℕ → JsonCursor → Option (Option DynamicVariable × JsonCursor)
  | 0, _ => none
  | fuel + 1, c =>
    match matchChar 123 c with
    | (false, c) => some (none, c)
    | (true, c) =>
      match matchChar 125 (skipWs c) with
      | (true, c) => some (some (.object []), c)
      | (false, c) => fieldsLoop fuel [] c

/-- The loop of `parse_object`; `o` holds the fields so far. -/
def fieldsLoop : ℕ → List (Bytes × DynamicVariable) → JsonCursor →
    Option (Option DynamicVariable × JsonCursor)
  | 0, _, _ => none
  | fuel + 1, o, c =>
    match parseString c with
    | (none, c) => some (none, c)
    | (some key, c) =>
      match matchChar 58 c with
      | (false, c) => some (none, c)
      | (true, c) =>
        match parseValue fuel c with
        | none => none
        | some (none, c) => some (none, c)
        | some (some val, c) =>
          match matchChar 125 (skipWs c) with
          | (true, c) => some (some (.object (emplace key val o)), c)
          | (false, c) =>
            match matchChar 44 c with
            | (false, c) => some (none, c)
            | (true, c) => fieldsLoop fuel (emplace key val o) c

end

/-- `parse_json`: the value, or the position of the error. -/
def parseJson (fuel : ℕ) (text : Bytes) : Option (Except ℕ DynamicVariable) :=
  match parseValue fuel { s := text } with
  | none => none
  | some (none, c) => some (.error c.i)
  | some (some v, c) =>
    let c := skipWs c
    if c.i ≠ text.length then some (.error c.i) else some (.ok v)

end JsonCursor

end Wasapi.Json
