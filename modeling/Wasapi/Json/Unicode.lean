import Wasapi.Json.Completeness
import Wasapi.Json.Printer

/-!
# Unicode escapes

Text written with `\uXXXX` escapes only, as RFC 8259 has it: a scalar value up to U+FFFF is one
escape, and a value above is a surrogate pair, one escape for each half. `parse_string` takes every
escape by itself. That is UTF-8 for an escape that is a scalar value; of a surrogate pair it makes
two sequences of three bytes in place of one of four.
-/

namespace Wasapi.Json

/-! ## Writing

One escape has four digits in upper or lower case, so a sequence of scalar values has many texts.
All of them are covered. -/

def HexDigit.value (d : HexDigit) : ℕ := (hexValue d.byte).getD 0

/-- The number four hexadecimal digits stand for. -/
def unitValue (d₁ d₂ d₃ d₄ : HexDigit) : ℕ :=
  ((d₁.value * 16 + d₂.value) * 16 + d₃.value) * 16 + d₄.value

/-- The escapes of a scalar value. -/
inductive Escapes (c : Char) : List JsonChar → Prop
  | unit (d₁ d₂ d₃ d₄ : HexDigit) (hle : c.toNat ≤ 0xFFFF)
      (hval : unitValue d₁ d₂ d₃ d₄ = c.toNat) : Escapes c [.unicode d₁ d₂ d₃ d₄]
  | pair (d₁ d₂ d₃ d₄ e₁ e₂ e₃ e₄ : HexDigit) (hlt : 0xFFFF < c.toNat)
      (hhigh : unitValue d₁ d₂ d₃ d₄ = 0xD800 + (c.toNat - 0x10000) / 0x400)
      (hlow : unitValue e₁ e₂ e₃ e₄ = 0xDC00 + (c.toNat - 0x10000) % 0x400) :
      Escapes c [.unicode d₁ d₂ d₃ d₄, .unicode e₁ e₂ e₃ e₄]

/-- The escapes of a sequence of scalar values. -/
inductive Escaped : List Char → List JsonChar → Prop
  | nil : Escaped [] []
  | cons {c : Char} {cs : List Char} {es chars : List JsonChar} (hc : Escapes c es)
      (hcs : Escaped cs chars) : Escaped (c :: cs) (es ++ chars)

/-- Every number of sixteen bits has four digits. -/
theorem exists_unitValue {n : ℕ} (h : n < 0x10000) :
    ∃ d₁ d₂ d₃ d₄ : HexDigit, unitValue d₁ d₂ d₃ d₄ = n := by
  have hdigit : ∀ k < 16, ∃ d : HexDigit, d.value = k := by
    intro k hk
    have hvalue : ∀ k < 16, (hexValue (hexDigit k)).getD 0 = k ∧
        (48 ≤ hexDigit k ∧ hexDigit k ≤ 57 ∨ 97 ≤ hexDigit k ∧ hexDigit k ≤ 102 ∨
          65 ≤ hexDigit k ∧ hexDigit k ≤ 70) := by
      decide
    exact ⟨⟨hexDigit k, (hvalue k hk).2⟩, (hvalue k hk).1⟩
  obtain ⟨d₁, h₁⟩ := hdigit (n / 4096) (by omega)
  obtain ⟨d₂, h₂⟩ := hdigit (n / 256 % 16) (by omega)
  obtain ⟨d₃, h₃⟩ := hdigit (n / 16 % 16) (by omega)
  obtain ⟨d₄, h₄⟩ := hdigit (n % 16) (by omega)
  refine ⟨d₁, d₂, d₃, d₄, ?_⟩
  rw [unitValue, h₁, h₂, h₃, h₄]
  omega

/-- Every sequence can be written. -/
theorem exists_escaped (cs : List Char) : ∃ chars, Escaped cs chars := by
  induction cs with
  | nil => exact ⟨[], .nil⟩
  | cons c cs ih =>
    obtain ⟨chars, hcs⟩ := ih
    have hmax : c.toNat < 0x110000 := by
      rcases c.valid with hlt | ⟨-, hlt⟩
      · exact hlt.trans (by decide)
      · exact hlt
    rcases le_or_gt c.toNat 0xFFFF with hle | hgt
    · obtain ⟨d₁, d₂, d₃, d₄, hval⟩ := exists_unitValue (n := c.toNat) (by omega)
      exact ⟨_, .cons (.unit d₁ d₂ d₃ d₄ hle hval) hcs⟩
    · obtain ⟨d₁, d₂, d₃, d₄, hhigh⟩ :=
        exists_unitValue (n := 0xD800 + (c.toNat - 0x10000) / 0x400) (by omega)
      obtain ⟨e₁, e₂, e₃, e₄, hlow⟩ :=
        exists_unitValue (n := 0xDC00 + (c.toNat - 0x10000) % 0x400) (by omega)
      exact ⟨_, .cons (.pair d₁ d₂ d₃ d₄ e₁ e₂ e₃ e₄ hgt hhigh hlow) hcs⟩

/-! ## Reading

Every escape is turned into bytes by itself. For a scalar value up to U+FFFF these are its UTF-8,
and for half of a surrogate pair they are no UTF-8 at all. -/

private theorem tail_bits (n : ℕ) : 0x80 ||| (n &&& 0x3F) = n % 64 + 0x80 := by
  have hlow : n &&& 0x3F = n % 2 ^ 6 := Nat.and_two_pow_sub_one_eq_mod n 6
  have hor := Nat.two_pow_add_eq_or_of_lt (Nat.mod_lt n (by decide : 0 < 2 ^ 6)) 2
  rw [hlow, ← hor]
  omega

private theorem lead_bits {i a n : ℕ} (h : n < 2 ^ i) :
    2 ^ i * a ||| n = n % 2 ^ i + 2 ^ i * a := by
  rw [← Nat.two_pow_add_eq_or_of_lt h, Nat.mod_eq_of_lt h, Nat.add_comm]

/-- An escape that is a scalar value is read as its UTF-8. -/
theorem codeUnit_eq {c : Char} (hle : c.toNat ≤ 0xFFFF) :
    codeUnit c.toNat = String.utf8EncodeChar c := by
  have hval : c.val.toNat = c.toNat := rfl
  rw [codeUnit, String.utf8EncodeChar, hval]
  simp only [Nat.shiftRight_eq_div_pow, tail_bits]
  by_cases h₁ : c.toNat ≤ 0x7F
  · rw [if_pos h₁, if_pos h₁]
  rw [if_neg h₁, if_neg h₁]
  by_cases h₂ : c.toNat ≤ 0x7FF
  · rw [if_pos h₂, if_pos h₂]
    have hlead := lead_bits (i := 5) (a := 6) (n := c.toNat / 2 ^ 6) (by omega)
    rw [(by decide : 0xC0 = 2 ^ 5 * 6), hlead]
    rfl
  · -- `codeUnit` knows no fourth form, and none is needed up to here
    rw [if_neg h₂, if_neg h₂, if_pos hle]
    have hlead := lead_bits (i := 4) (a := 14) (n := c.toNat / 2 ^ 12) (by omega)
    rw [(by decide : 0xE0 = 2 ^ 4 * 14), hlead]
    rfl

private theorem length_codeUnit_surrogate {n : ℕ} (h : 0xD800 ≤ n) : (codeUnit n).length = 3 := by
  rw [codeUnit, if_neg (by omega), if_neg (by omega)]
  rfl

private theorem length_utf8EncodeChar_of_lt {c : Char} (h : 0xFFFF < c.toNat) :
    (String.utf8EncodeChar c).length = 4 := by
  have hval : c.val.toNat = c.toNat := rfl
  rw [String.utf8EncodeChar, hval, if_neg (by omega), if_neg (by omega), if_neg (by omega)]
  rfl

/-- What is read of the escapes of a scalar value. -/
theorem bytes_escapes {c : Char} {es : List JsonChar} (h : Escapes c es) :
    (c.toNat ≤ 0xFFFF ∧ es.flatMap JsonChar.bytes = String.utf8EncodeChar c) ∨
      (0xFFFF < c.toNat ∧
        (es.flatMap JsonChar.bytes).length = (String.utf8EncodeChar c).length + 2) := by
  cases h with
  | unit d₁ d₂ d₃ d₄ hle hval =>
    refine .inl ⟨hle, ?_⟩
    rw [List.flatMap_singleton, ← codeUnit_eq hle, ← hval]
    rfl
  | pair d₁ d₂ d₃ d₄ e₁ e₂ e₃ e₄ hlt hhigh hlow =>
    refine .inr ⟨hlt, ?_⟩
    have hbytes (d₁ d₂ d₃ d₄ : HexDigit) :
        (JsonChar.unicode d₁ d₂ d₃ d₄).bytes = codeUnit (unitValue d₁ d₂ d₃ d₄) := rfl
    rw [List.flatMap_cons, List.flatMap_singleton, hbytes, hbytes, hhigh, hlow, List.length_append,
      length_codeUnit_surrogate (Nat.le_add_right _ _), length_codeUnit_surrogate (by omega),
      length_utf8EncodeChar_of_lt hlt]

private theorem bytes_escaped {cs : List Char} {chars : List JsonChar} (h : Escaped cs chars) :
    (chars.flatMap JsonChar.bytes).length = (cs.flatMap String.utf8EncodeChar).length
        + 2 * cs.countP (fun c ↦ 0xFFFF < c.toNat) ∧
      ((∀ c ∈ cs, c.toNat ≤ 0xFFFF) →
        chars.flatMap JsonChar.bytes = cs.flatMap String.utf8EncodeChar) := by
  induction h with
  | nil => exact ⟨rfl, fun _ ↦ rfl⟩
  | @cons c cs es chars hc hcs ih =>
    obtain ⟨hlen, heq⟩ := ih
    rw [List.flatMap_append, List.flatMap_cons, List.length_append, List.length_append, hlen]
    rcases bytes_escapes hc with ⟨hle, hbytes⟩ | ⟨hlt, hbytes⟩
    · rw [List.countP_cons_of_neg (by simpa using hle), hbytes]
      refine ⟨by omega, fun hall ↦ ?_⟩
      rw [heq fun c hc ↦ hall c (List.mem_cons_of_mem _ hc)]
    · rw [List.countP_cons_of_pos (by simpa using hlt), hbytes]
      refine ⟨by omega, fun hall ↦ ?_⟩
      exact absurd (hall c List.mem_cons_self) (not_le.mpr hlt)

/-- **Escapes are read as UTF-8** if there is no surrogate pair among them. -/
theorem parseString_escaped_iff {cs : List Char} {chars : List JsonChar} (h : Escaped cs chars)
    (tail : Bytes) :
    parseString ((JsonString.mk chars).text ++ tail)
        = (some (cs.flatMap String.utf8EncodeChar), tail) ↔
      ∀ c ∈ cs, c.toNat ≤ 0xFFFF := by
  obtain ⟨hlen, heq⟩ := bytes_escaped h
  rw [parseString_text, JsonString.bytes, Prod.mk.injEq, Option.some.injEq, and_iff_left rfl]
  constructor
  · -- every pair makes two octets too many, so the lengths agree only without pairs
    intro hbytes
    rw [hbytes] at hlen
    have hzero : cs.countP (fun c ↦ 0xFFFF < c.toNat) = 0 := by omega
    intro c hc
    have hnot := List.countP_eq_zero.mp hzero c hc
    rwa [decide_eq_true_eq, not_lt] at hnot
  · exact heq

theorem parseString_escaped_iff_euro :
    parseString (ascii "\"\\u20aC\"" ++ [10])
        = (some (['€'].flatMap String.utf8EncodeChar), [10]) ↔
      ∀ c ∈ ['€'], c.toNat ≤ 0xFFFF :=
  parseString_escaped_iff (.cons (.unit ⟨50, by decide⟩ ⟨48, by decide⟩ ⟨97, by decide⟩
    ⟨67, by decide⟩ (by decide) (by decide)) .nil) [10]

theorem not_parseString_surrogates :
    ¬∀ (cs : List Char) (chars : List JsonChar) (tail : Bytes), Escaped cs chars →
      parseString ((JsonString.mk chars).text ++ tail)
        = (some (cs.flatMap String.utf8EncodeChar), tail) := by
  intro hall
  have hread := hall ['😀'] _ [] (.cons (.pair ⟨68, by decide⟩ ⟨56, by decide⟩ ⟨51, by decide⟩
    ⟨68, by decide⟩ ⟨68, by decide⟩ ⟨69, by decide⟩ ⟨48, by decide⟩ ⟨48, by decide⟩
    (by decide) (by decide) (by decide)) .nil)
  exact absurd (congrArg (fun p ↦ p.1.map List.length) hread) (by decide +kernel)

end Wasapi.Json
