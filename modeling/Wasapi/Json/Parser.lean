import Wasapi.Json.Numbers

/-!
# The JSON parser

`parse_json` and the functions it calls. A cursor is given by the text from its position on, and a
function that moves it returns what is left, also when it fails.

`parse_value`, `parse_array` and `parse_object` call each other; their first argument bounds the
depth of these calls and the turns of the two loops. `parseJson` starts with three for each byte of
the text and one more.
-/

namespace Wasapi.Json

def skipWs (s : Bytes) : Bytes := s.dropWhile isSpace

/-- `match` -/
def matchChar (ch : UInt8) (s : Bytes) : Bool × Bytes :=
  match skipWs s with
  | [] => (false, [])
  | b :: s => if b = ch then (true, s) else (false, b :: s)

/-! ## Strings

An error in an escape is noticed when its digits are read, and the whole string fails. Escapes of
one letter that the switch does not know fail likewise. -/

def hexValue (h : UInt8) : Option ℕ :=
  if 48 ≤ h && h ≤ 57 then some (h.toNat - 48)
  else if 97 ≤ h && h ≤ 102 then some (10 + h.toNat - 97)
  else if 65 ≤ h && h ≤ 70 then some (10 + h.toNat - 65)
  else none

/-- The loop over the `k` hexadecimal digits that are left of an escape. -/
def hexLoop : ℕ → ℕ → Bytes → Option ℕ × Bytes
  | 0, v, s => (some v, s)
  | _ + 1, _, [] => (none, [])
  | k + 1, v, h :: s =>
    match hexValue h with
    | none => (none, s)
    | some d => hexLoop k (v * 16 + d) s

/-- The bytes an escaped code unit stands for. -/
def codeUnit (v : ℕ) : Bytes :=
  if v ≤ 0x7F then [UInt8.ofNat v]
  else if v ≤ 0x7FF then [UInt8.ofNat (0xC0 ||| v >>> 6), UInt8.ofNat (0x80 ||| (v &&& 0x3F))]
  else
    [UInt8.ofNat (0xE0 ||| v >>> 12), UInt8.ofNat (0x80 ||| (v >>> 6 &&& 0x3F)),
      UInt8.ofNat (0x80 ||| (v &&& 0x3F))]

/-- The escapes of one letter. -/
def simpleEscape (esc : UInt8) : Option UInt8 :=
  if esc = 34 ∨ esc = 92 ∨ esc = 47 then some esc
  else if esc = 98 then some 8
  else if esc = 102 then some 12
  else if esc = 110 then some 10
  else if esc = 114 then some 13
  else if esc = 116 then some 9
  else none

/-- The loop of `parse_string` behind the opening quote. -/
def stringLoop : ℕ → Bytes → Bytes → Option Bytes × Bytes
  | 0, _, s => (none, s)
  | _ + 1, _, [] => (none, [])
  | fuel + 1, out, ch :: s =>
    if ch = 34 then (some out, s)
    else if ch = 92 then
      match s with
      | [] => (none, [])
      | esc :: s =>
        match simpleEscape esc with
        | some b => stringLoop fuel (out ++ [b]) s
        | none =>
          if esc = 117 then
            if s.length < 4 then (none, s)
            else
              match hexLoop 4 0 s with
              | (none, s) => (none, s)
              | (some v, s) => stringLoop fuel (out ++ codeUnit v) s
          else (none, s)
    else stringLoop fuel (out ++ [ch]) s

def parseString (s : Bytes) : Option Bytes × Bytes :=
  match skipWs s with
  | [] => (none, [])
  | b :: s => if b = 34 then stringLoop s.length [] s else (none, b :: s)

/-! ## Numbers -/

/-- The loop of `parse_number`: digits, and a point unless there has been one. -/
def numberLoop : Bool → Bytes → Bytes
  | _, [] => []
  | dot, ch :: s =>
    if isDigit ch then numberLoop dot s
    else if ch = 46 && !dot then numberLoop true s
    else ch :: s

def parseNumber (s : Bytes) : Option ℚ × Bytes :=
  let start := skipWs s
  let unsigned := if start.head? = some 45 || start.head? = some 43 then start.tail else start
  let rest := numberLoop false unsigned
  if rest.length = start.length then (none, rest)
  else (stod (start.take (start.length - rest.length)), rest)

/-! ## Values

The loops hold what has been read so far. In an object the key of a field is looked up when the
field is entered, and the first field of a key stays. -/

/-- `emplace`: a key that is there keeps its value. -/
def emplace (key : Bytes) (v : DynamicVariable) (o : List (Bytes × DynamicVariable)) :
    List (Bytes × DynamicVariable) :=
  if (o.lookup key).isSome then o else o ++ [(key, v)]

mutual

def parseValue : ℕ → Bytes → Option DynamicVariable × Bytes
  | 0, s => (none, s)
  | fuel + 1, s =>
    match skipWs s with
    | [] => (none, [])
    | ch :: s =>
      if ch = 34 then
        match parseString (ch :: s) with
        | (none, s) => (none, s)
        | (some text, s) => (some (.string text), s)
      else if ch = 123 then parseObject fuel (ch :: s)
      else if ch = 91 then parseArray fuel (ch :: s)
      else if (ascii "true").isPrefixOf (ch :: s) then (some (.bool true), (ch :: s).drop 4)
      else if (ascii "false").isPrefixOf (ch :: s) then (some (.bool false), (ch :: s).drop 5)
      else if (ascii "null").isPrefixOf (ch :: s) then (some .null, (ch :: s).drop 4)
      else
        match parseNumber (ch :: s) with
        | (none, s) => (none, s)
        | (some num, s) => (some (.number num), s)

def parseArray : ℕ → Bytes → Option DynamicVariable × Bytes
  | 0, s => (none, s)
  | fuel + 1, s =>
    match matchChar 91 s with
    | (false, s) => (none, s)
    | (true, s) =>
      match matchChar 93 (skipWs s) with
      | (true, s) => (some (.array []), s)
      | (false, s) => itemsLoop fuel [] s

/-- The loop of `parse_array`; `a` holds the items so far. -/
def itemsLoop : ℕ → List DynamicVariable → Bytes → Option DynamicVariable × Bytes
  | 0, _, s => (none, s)
  | fuel + 1, a, s =>
    match parseValue fuel s with
    | (none, s) => (none, s)
    | (some elem, s) =>
      match matchChar 93 (skipWs s) with
      | (true, s) => (some (.array (a ++ [elem])), s)
      | (false, s) =>
        match matchChar 44 s with
        | (false, s) => (none, s)
        | (true, s) => itemsLoop fuel (a ++ [elem]) s

def parseObject : ℕ → Bytes → Option DynamicVariable × Bytes
  | 0, s => (none, s)
  | fuel + 1, s =>
    match matchChar 123 s with
    | (false, s) => (none, s)
    | (true, s) =>
      match matchChar 125 (skipWs s) with
      | (true, s) => (some (.object []), s)
      | (false, s) => fieldsLoop fuel [] s

/-- The loop of `parse_object`; `o` holds the fields so far. -/
def fieldsLoop : ℕ → List (Bytes × DynamicVariable) → Bytes → Option DynamicVariable × Bytes
  | 0, _, s => (none, s)
  | fuel + 1, o, s =>
    match parseString s with
    | (none, s) => (none, s)
    | (some key, s) =>
      match matchChar 58 s with
      | (false, s) => (none, s)
      | (true, s) =>
        match parseValue fuel s with
        | (none, s) => (none, s)
        | (some val, s) =>
          match matchChar 125 (skipWs s) with
          | (true, s) => (some (.object (emplace key val o)), s)
          | (false, s) =>
            match matchChar 44 s with
            | (false, s) => (none, s)
            | (true, s) => fieldsLoop fuel (emplace key val o) s

end

/-- `parse_json`: the value, or the position of the error. -/
def parseJson (text : Bytes) : Except ℕ DynamicVariable :=
  match parseValue (3 * text.length + 1) text with
  | (none, s) => .error (text.length - s.length)
  | (some v, s) =>
    let s := skipWs s
    if s.isEmpty then .ok v else .error (text.length - s.length)

end Wasapi.Json
