import Wasapi.Json.Parser

/-!
# JSON documents

The grammar of RFC 8259 as concrete syntax trees: a tree holds every character of its text, also the
white space and the escapes, and `text` writes them down. What a tree means to `parse_json` is its
`dynamic` value.

A text is a list of bytes. Bytes from 0x80 on occur in strings only, as parts of encoded characters,
and the grammar here takes them in any order.
-/

namespace Wasapi.Json

/-! ## White space and strings

A tree keeps what is lost when a string is read: which characters were escaped, and in which way. So
each character of the grammar has a text and a meaning of its own. -/

/-- `ws` -/
structure Whitespace where
  text : Bytes
  isWs : ∀ b ∈ text, b = 0x20 ∨ b = 0x09 ∨ b = 0x0A ∨ b = 0x0D

def noSpace : Whitespace := ⟨[], fun _ h ↦ (nomatch h)⟩

/-- `HEXDIG` -/
structure HexDigit where
  byte : UInt8
  isHex : (48 ≤ byte ∧ byte ≤ 57) ∨ (97 ≤ byte ∧ byte ≤ 102) ∨ (65 ≤ byte ∧ byte ≤ 70)

/-- `char` -/
inductive JsonChar where
  | unescaped (b : UInt8) (h : 0x20 ≤ b ∧ b ≠ 34 ∧ b ≠ 92)
  | escape (b : UInt8) (h : b ∈ ascii "\"\\/bfnrt")
  | unicode (d₁ d₂ d₃ d₄ : HexDigit)

namespace JsonChar

def text : JsonChar → Bytes
  | unescaped b _ => [b]
  | escape b _ => [92, b]
  | unicode d₁ d₂ d₃ d₄ => [92, 117, d₁.byte, d₂.byte, d₃.byte, d₄.byte]

/-- The bytes the character stands for. Each half of a surrogate pair is taken by itself. -/
def bytes : JsonChar → Bytes
  | unescaped b _ => [b]
  | escape b _ => (simpleEscape b).toList
  | unicode d₁ d₂ d₃ d₄ =>
    let digit (d : HexDigit) : ℕ := (hexValue d.byte).getD 0
    codeUnit (((digit d₁ * 16 + digit d₂) * 16 + digit d₃) * 16 + digit d₄)

end JsonChar

/-- `string` -/
structure JsonString where
  chars : List JsonChar

namespace JsonString

def text (s : JsonString) : Bytes := 34 :: (s.chars.flatMap JsonChar.text ++ [34])

def bytes (s : JsonString) : Bytes := s.chars.flatMap JsonChar.bytes

end JsonString

/-! ## Numbers

A number without an exponent has a value that is a decimal fraction, and the parser reads it as the
`double` next to that. The fraction and the exponent may be missing. -/

/-- `1*DIGIT` -/
structure Digits where
  text : Bytes
  ne_nil : text ≠ []
  isDigit : ∀ d ∈ text, isDigit d = true

/-- A number of one digit. -/
def oneDigit (d : UInt8) (h : isDigit d = true) : Digits where
  text := [d]
  ne_nil := List.cons_ne_nil d []
  isDigit := fun _ hd ↦ List.mem_singleton.mp hd ▸ h

/-- `exp` -/
structure Exponent where
  letter : UInt8
  isE : letter = 101 ∨ letter = 69
  sign : Bytes
  isSign : sign = [] ∨ sign = [43] ∨ sign = [45]
  digits : Digits

namespace Exponent

theorem isE_small : (101 : UInt8) = 101 ∨ (101 : UInt8) = 69 := .inl rfl

def text (e : Exponent) : Bytes := e.letter :: (e.sign ++ e.digits.text)

def value (e : Exponent) : ℤ :=
  if e.sign = [45] then -digitsValue e.digits.text else digitsValue e.digits.text

end Exponent

/-- `number` -/
structure JsonNumber where
  minus : Bool
  int : Digits
  noLeadingZero : int.text.head? = some 48 → int.text = [48]
  frac : Option Digits
  exp : Option Exponent

namespace JsonNumber

variable (n : JsonNumber)

def sign : Bytes := if n.minus then [45] else []

/-- The digits behind the point. -/
def fracDigits : Bytes := n.frac.elim [] Digits.text

def fracText : Bytes := n.frac.elim [] fun f ↦ 46 :: f.text

/-- The number up to its exponent. -/
def mantissaText : Bytes := n.sign ++ (n.int.text ++ n.fracText)

def text : Bytes := n.mantissaText ++ n.exp.elim [] Exponent.text

def mantissa : ℚ :=
  let m : ℚ := digitsValue (n.int.text ++ n.fracDigits) / 10 ^ n.fracDigits.length
  if n.minus then -m else m

def value : ℚ := n.mantissa * 10 ^ n.exp.elim 0 Exponent.value

/-- The number has no exponent, and a `double` holds it. -/
def Readable : Prop := n.exp = none ∧ (toDouble n.value).isSome = true

end JsonNumber

/-! ## Values

Lists are trees of their own, so that a derivation can be followed by a structural recursion. An
object may repeat a key; `emplace` keeps the first value. -/

mutual

/-- `value` -/
inductive JsonValue where
  | null
  | bool (b : Bool)
  | number (n : JsonNumber)
  | string (s : JsonString)
  | emptyArray (ws : Whitespace)
  | array (items : JsonItems)
  | emptyObject (ws : Whitespace)
  | object (members : JsonMembers)

/-- The items of an array, each between its white space. -/
inductive JsonItems where
  | last (before : Whitespace) (v : JsonValue) (after : Whitespace)
  | cons (before : Whitespace) (v : JsonValue) (after : Whitespace) (more : JsonItems)

/-- The members of an object. -/
inductive JsonMembers where
  | last (before : Whitespace) (key : JsonString) (beforeColon afterColon : Whitespace)
      (v : JsonValue) (after : Whitespace)
  | cons (before : Whitespace) (key : JsonString) (beforeColon afterColon : Whitespace)
      (v : JsonValue) (after : Whitespace) (more : JsonMembers)

end

mutual

def JsonValue.text : JsonValue → Bytes
  | .null => ascii "null"
  | .bool b => if b then ascii "true" else ascii "false"
  | .number n => n.text
  | .string s => s.text
  | .emptyArray ws => 91 :: (ws.text ++ [93])
  | .array items => 91 :: (items.text ++ [93])
  | .emptyObject ws => 123 :: (ws.text ++ [125])
  | .object members => 123 :: (members.text ++ [125])

def JsonItems.text : JsonItems → Bytes
  | .last before v after => before.text ++ v.text ++ after.text
  | .cons before v after more => before.text ++ v.text ++ after.text ++ 44 :: more.text

def JsonMembers.text : JsonMembers → Bytes
  | .last before key beforeColon afterColon v after =>
    before.text ++ key.text ++ beforeColon.text ++ 58 :: (afterColon.text ++ v.text ++ after.text)
  | .cons before key beforeColon afterColon v after more =>
    before.text ++ key.text ++ beforeColon.text
      ++ 58 :: (afterColon.text ++ v.text ++ after.text ++ 44 :: more.text)

end

mutual

/-- All numbers of a value. -/
def JsonValue.numbers : JsonValue → List JsonNumber
  | .number n => [n]
  | .array items => items.numbers
  | .object members => members.numbers
  | _ => []

def JsonItems.numbers : JsonItems → List JsonNumber
  | .last _ v _ => v.numbers
  | .cons _ v _ more => v.numbers ++ more.numbers

def JsonMembers.numbers : JsonMembers → List JsonNumber
  | .last _ _ _ _ v _ => v.numbers
  | .cons _ _ _ _ v _ more => v.numbers ++ more.numbers

end

mutual

/-- What the value means to `parse_json`, if its numbers are readable. -/
def JsonValue.dynamic : JsonValue → DynamicVariable
  | .null => .null
  | .bool b => .bool b
  | .number n => .number ((toDouble n.value).getD 0)
  | .string s => .string s.bytes
  | .emptyArray _ => .array []
  | .array items => .array items.dynamic
  | .emptyObject _ => .object []
  | .object members => .object (members.dynamic [])

def JsonItems.dynamic : JsonItems → List DynamicVariable
  | .last _ v _ => [v.dynamic]
  | .cons _ v _ more => v.dynamic :: more.dynamic

/-- The fields, behind those there are. -/
def JsonMembers.dynamic : JsonMembers → List (Bytes × DynamicVariable) →
    List (Bytes × DynamicVariable)
  | .last _ key _ _ v _, o => emplace key.bytes v.dynamic o
  | .cons _ key _ _ v _ more, o => more.dynamic (emplace key.bytes v.dynamic o)

end

/-- `JSON-text` -/
structure Document where
  before : Whitespace
  value : JsonValue
  after : Whitespace

def Document.text (d : Document) : Bytes := d.before.text ++ (d.value.text ++ d.after.text)

end Wasapi.Json
