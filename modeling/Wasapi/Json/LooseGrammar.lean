import Wasapi.Json.Completeness

/-!
# The language of the parser

What `parse_json` takes for JSON, as a grammar of its own. It is that of RFC 8259 but for four
things. Everything `isspace` knows is white space. A control character may stand in a string as it
is. A number may start with a plus, with zeros or with its point, and may end with its point, but
has no exponent. Of several members with one key, the first one counts.

A derivation relates a text to the value it stands for.
-/

namespace Wasapi.Json

/-! ## Strings

The parser takes any byte but a quote and a backslash for itself. The grammar of RFC 8259 leaves out
the control characters. -/

/-- A character of a string: one of the grammar, or a control character. -/
inductive LooseChar where
  | json (c : JsonChar)
  | control (b : UInt8) (h : b < 0x20)

namespace LooseChar

def text : LooseChar → Bytes
  | json c => c.text
  | control b _ => [b]

def bytes : LooseChar → Bytes
  | json c => c.bytes
  | control b _ => [b]

end LooseChar

/-- A string between its quotes. -/
def quoted (chars : List LooseChar) : Bytes := 34 :: (chars.flatMap LooseChar.text ++ [34])

/-! ## Numbers

Digits with a point anywhere among them, in front of them or behind them, and either sign in front
of it all. `stod` wants one digit at least. -/

structure LooseNumber where
  sign : Bytes
  isSign : sign = [] ∨ sign = [43] ∨ sign = [45]
  whole : Bytes
  isWhole : ∀ d ∈ whole, isDigit d = true
  /-- the digits behind the point, if there is one -/
  frac : Option Bytes
  isFrac : ∀ digits ∈ frac, ∀ d ∈ digits, isDigit d = true
  ne_nil : whole ++ frac.getD [] ≠ []

namespace LooseNumber

variable (n : LooseNumber)

def fracText : Bytes := n.frac.elim [] (46 :: ·)

def unsignedText : Bytes := n.whole ++ n.fracText

def text : Bytes := n.sign ++ n.unsignedText

def value : ℚ :=
  let m : ℚ := digitsValue (n.whole ++ n.frac.getD []) / 10 ^ (n.frac.getD []).length
  if n.sign = [45] then -m else m

end LooseNumber

/-! ## Values -/

mutual

inductive LooseValue : Bytes → DynamicVariable → Prop
  | null : LooseValue (ascii "null") .null
  | bool (b : Bool) : LooseValue (if b then ascii "true" else ascii "false") (.bool b)
  | number (n : LooseNumber) {num : ℚ} (h : toDouble n.value = some num) :
    LooseValue n.text (.number num)
  | string (chars : List LooseChar) :
    LooseValue (quoted chars) (.string (chars.flatMap LooseChar.bytes))
  | emptyArray {ws : Bytes} (hws : Blank ws) : LooseValue (91 :: (ws ++ [93])) (.array [])
  | array {t : Bytes} {a : List DynamicVariable} (h : LooseItems t a) :
    LooseValue (91 :: (t ++ [93])) (.array a)
  | emptyObject {ws : Bytes} (hws : Blank ws) : LooseValue (123 :: (ws ++ [125])) (.object [])
  | object {t : Bytes} {o : List (Bytes × DynamicVariable)} (h : LooseMembers t [] o) :
    LooseValue (123 :: (t ++ [125])) (.object o)

/-- The items of an array, each between its white space. -/
inductive LooseItems : Bytes → List DynamicVariable → Prop
  | last {ws t ws' : Bytes} {v : DynamicVariable} (hws : Blank ws) (h : LooseValue t v)
    (hws' : Blank ws') : LooseItems (ws ++ t ++ ws') [v]
  | cons {ws t ws' more : Bytes} {v : DynamicVariable} {a : List DynamicVariable} (hws : Blank ws)
    (h : LooseValue t v) (hws' : Blank ws') (hmore : LooseItems more a) :
    LooseItems (ws ++ t ++ ws' ++ 44 :: more) (v :: a)

/-- The members of an object, behind those that have made `o`. -/
inductive LooseMembers : Bytes → List (Bytes × DynamicVariable) →
    List (Bytes × DynamicVariable) → Prop
  | last {before beforeColon afterColon t after : Bytes} {v : DynamicVariable}
    {o : List (Bytes × DynamicVariable)} (key : List LooseChar) (hbefore : Blank before)
    (hcolon : Blank beforeColon) (hcolon' : Blank afterColon) (h : LooseValue t v)
    (hafter : Blank after) :
    LooseMembers (before ++ quoted key ++ beforeColon ++ 58 :: (afterColon ++ t ++ after)) o
      (emplace (key.flatMap LooseChar.bytes) v o)
  | cons {before beforeColon afterColon t after more : Bytes} {v : DynamicVariable}
    {o o' : List (Bytes × DynamicVariable)} (key : List LooseChar) (hbefore : Blank before)
    (hcolon : Blank beforeColon) (hcolon' : Blank afterColon) (h : LooseValue t v)
    (hafter : Blank after)
    (hmore : LooseMembers more (emplace (key.flatMap LooseChar.bytes) v o) o') :
    LooseMembers
      (before ++ quoted key ++ beforeColon ++ 58 :: (afterColon ++ t ++ after ++ 44 :: more)) o o'

end

/-- A value between its white space. -/
def LooseText (t : Bytes) (v : DynamicVariable) : Prop :=
  ∃ before value after, Blank before ∧ LooseValue value v ∧ Blank after ∧
    t = before ++ value ++ after

/-! ## What is read off a derivation

How a text begins decides which function reads it. No two kinds of value begin alike. -/

variable {t : Bytes} {v : DynamicVariable} {a : List DynamicVariable}
  {o o' : List (Bytes × DynamicVariable)}

/-- A value starts with a character that is neither a space nor a closing bracket. -/
theorem LooseNumber.text_cons (n : LooseNumber) :
    ∃ b s, n.text = b :: s ∧ (b = 43 ∨ b = 45 ∨ b = 46 ∨ isDigit b = true) := by
  rw [text, unsignedText, fracText]
  obtain h | h | h := n.isSign
  · rw [h, List.nil_append]
    cases hwhole : n.whole with
    | cons d s => exact ⟨d, _, rfl, .inr (.inr (.inr (n.isWhole d (hwhole ▸ List.mem_cons_self))))⟩
    | nil =>
      cases hfrac : n.frac with
      | some digits => exact ⟨46, digits, rfl, .inr (.inr (.inl rfl))⟩
      | none =>
        refine absurd ?_ n.ne_nil
        rw [hwhole, hfrac]
        rfl
  · exact ⟨43, _, by rw [h]; rfl, .inl rfl⟩
  · exact ⟨45, _, by rw [h]; rfl, .inr (.inl rfl)⟩

/-- How a number starts is not a space, and no other value starts so. -/
theorem starts_looseNumber : ∀ b : UInt8, (b = 43 ∨ b = 45 ∨ b = 46 ∨ isDigit b = true) →
    isSpace b = false ∧ b ≠ 34 ∧ b ≠ 91 ∧ b ≠ 93 ∧ b ≠ 123 ∧ b ≠ 116 ∧ b ≠ 102 ∧ b ≠ 110 := by
  decide +kernel

theorem LooseValue.text_cons (h : LooseValue t v) :
    ∃ b s, t = b :: s ∧ isSpace b = false ∧ b ≠ 93 := by
  cases h with
  | number n h =>
    obtain ⟨b, s, hcons, hb⟩ := n.text_cons
    obtain ⟨hspace, -, -, hclose, -⟩ := starts_looseNumber b hb
    exact ⟨b, s, hcons, hspace, hclose⟩
  | bool b => cases b <;> exact ⟨_, _, rfl, by decide, by decide⟩
  | _ => exact ⟨_, _, rfl, by decide, by decide⟩

end Wasapi.Json
