import Wasapi.Json.Grammar

/-!
# Which documents are accepted

`parse_json` reads every document of the grammar, except for its numbers: the loop of `parse_number`
knows digits and a point, and stops in front of an exponent.

The proof follows the syntax tree. Either all numbers below a node are readable, and the parser
consumes just the text of the node, or it fails there, or it stops at an exponent, which is where
the caller fails.
-/

namespace Wasapi.Json

/-! ## White space and brackets

Every function skips white space on its way in, so white space can be read in front of whatever
comes next. What has to be excluded is only that a value begins like the bracket that would end the
list. -/

def Blank (ws : Bytes) : Prop := ∀ b ∈ ws, isSpace b = true

theorem Whitespace.blank (ws : Whitespace) : Blank ws.text := by
  intro b hb
  rcases ws.isWs b hb with rfl | rfl | rfl | rfl <;> decide

theorem skipWs_blank {ws : Bytes} (h : Blank ws) (s : Bytes) : skipWs (ws ++ s) = skipWs s := by
  induction ws with
  | nil => rfl
  | cons b ws ih =>
    rw [List.cons_append, skipWs, List.dropWhile_cons_of_pos (h b List.mem_cons_self)]
    exact ih fun b' hb' ↦ h b' (List.mem_cons_of_mem _ hb')

theorem skipWs_cons {b : UInt8} (h : isSpace b = false) (s : Bytes) : skipWs (b :: s) = b :: s :=
  List.dropWhile_cons_of_neg (by rw [h]; decide)

private theorem skipWs_skipWs (s : Bytes) :
    skipWs (skipWs s) = skipWs s := List.dropWhile_idempotent _ s

theorem matchChar_blank {ws : Bytes} (h : Blank ws) (ch : UInt8) (s : Bytes) :
    matchChar ch (ws ++ s) = matchChar ch s := by
  rw [matchChar, matchChar, skipWs_blank h]

theorem matchChar_skipWs (ch : UInt8) (s : Bytes) : matchChar ch (skipWs s) = matchChar ch s := by
  rw [matchChar, matchChar, skipWs_skipWs]

theorem matchChar_self {ch : UInt8} (h : isSpace ch = false) (s : Bytes) :
    matchChar ch (ch :: s) = (true, s) := by
  rw [matchChar, skipWs_cons h]
  exact if_pos rfl

private theorem matchChar_of_ne {ch b : UInt8} (h : isSpace b = false) (hne : b ≠ ch) (s : Bytes) :
    matchChar ch (b :: s) = (false, b :: s) := by
  rw [matchChar, skipWs_cons h]
  exact if_neg hne

theorem matchChar_of_skipWs {ch b : UInt8} {s s' : Bytes} (h : skipWs s = b :: s') (hne : b ≠ ch) :
    matchChar ch (skipWs s) = (false, skipWs s) := by
  rw [matchChar_skipWs, matchChar, h]
  exact if_neg hne

/-- The separator behind an item that is not the last one. -/
theorem matchChar_comma {close : UInt8} (hclose : (44 : UInt8) ≠ close) (s : Bytes) :
    matchChar close (skipWs (44 :: s)) = (false, 44 :: s) := by
  rw [matchChar_skipWs, matchChar_of_ne (by decide) hclose]

/-- The closing bracket behind the last item. -/
theorem matchChar_close {ws : Bytes} (hws : Blank ws) {close : UInt8} (h : isSpace close = false)
    (s : Bytes) : matchChar close (skipWs (ws ++ close :: s)) = (true, s) := by
  rw [matchChar_skipWs, matchChar_blank hws, matchChar_self h]

private theorem parseValue_skipWs (fuel : ℕ) (s : Bytes) :
    parseValue (fuel + 1) (skipWs s) = parseValue (fuel + 1) s := by
  rw [parseValue, parseValue, skipWs_skipWs]

theorem parseValue_blank {ws : Bytes} (h : Blank ws) (fuel : ℕ) (s : Bytes) :
    parseValue (fuel + 1) (ws ++ s) = parseValue (fuel + 1) s := by
  rw [parseValue, parseValue, skipWs_blank h]

theorem itemsLoop_skipWs (fuel : ℕ) (a : List DynamicVariable) (s : Bytes) :
    itemsLoop (fuel + 2) a (skipWs s) = itemsLoop (fuel + 2) a s := by
  rw [itemsLoop, itemsLoop, parseValue_skipWs]

/-- Reading an array is reading its items, unless it is empty. -/
theorem parseValue_bracket (fuel : ℕ) (s : Bytes) :
    parseValue (fuel + 2) (91 :: s) =
      match matchChar 93 (skipWs s) with
      | (true, s) => (some (.array []), s)
      | (false, s) => itemsLoop fuel [] s := rfl

theorem parseValue_brace (fuel : ℕ) (s : Bytes) :
    parseValue (fuel + 2) (123 :: s) =
      match matchChar 125 (skipWs s) with
      | (true, s) => (some (.object []), s)
      | (false, s) => fieldsLoop fuel [] s := rfl

/-! ## Strings

Inside a string nothing is skipped. A character takes one turn of the loop, whether it is written as
itself or as an escape. -/

theorem stringLoop_quote (fuel : ℕ) (out s : Bytes) :
    stringLoop (fuel + 1) out (34 :: s) = (some out, s) := if_pos rfl

theorem stringLoop_of_ne {ch : UInt8} (hquote : ch ≠ 34) (hbackslash : ch ≠ 92) (fuel : ℕ)
    (out s : Bytes) : stringLoop (fuel + 1) out (ch :: s) = stringLoop fuel (out ++ [ch]) s := by
  rw [stringLoop.eq_def]
  simp only [if_neg hquote, if_neg hbackslash]

private theorem hexLoop_hexDigit (d : HexDigit) (k v : ℕ) (s : Bytes) :
    hexLoop (k + 1) v (d.byte :: s) = hexLoop k (v * 16 + (hexValue d.byte).getD 0) s := by
  have hsome : (hexValue d.byte).isSome = true := by
    rw [hexValue]
    split
    · rfl
    next hdigit =>
    split
    · rfl
    next hlower =>
    split
    · rfl
    next hupper =>
    rcases d.isHex with h | h | h
    · exact absurd (by simp [h]) hdigit
    · exact absurd (by simp [h]) hlower
    · exact absurd (by simp [h]) hupper
  obtain ⟨digit, hdigit⟩ := Option.isSome_iff_exists.mp hsome
  rw [hexLoop, hdigit]
  rfl

private theorem isSome_simpleEscape : ∀ b ∈ ascii "\"\\/bfnrt", (simpleEscape b).isSome = true := by
  decide +kernel

/-- One character is read. -/
theorem stringLoop_text (c : JsonChar) (fuel : ℕ) (out s : Bytes) :
    stringLoop (fuel + 1) out (c.text ++ s) = stringLoop fuel (out ++ c.bytes) s := by
  cases c with
  | unescaped b h => exact stringLoop_of_ne h.2.1 h.2.2 fuel out s
  | escape b h =>
    obtain ⟨ch, hch⟩ := Option.isSome_iff_exists.mp (isSome_simpleEscape b h)
    rw [JsonChar.text, JsonChar.bytes, hch, List.cons_append, List.cons_append, List.nil_append,
      stringLoop, if_neg (by decide), if_pos rfl]
    simp only [hch]
    rfl
  | unicode d₁ d₂ d₃ d₄ =>
    have hnot : simpleEscape 117 = none := by decide
    have hlen : ¬(d₁.byte :: d₂.byte :: d₃.byte :: d₄.byte :: s).length < 4 := by
      simp only [List.length_cons]
      omega
    rw [JsonChar.text, JsonChar.bytes]
    simp only [List.cons_append, List.nil_append]
    rw [stringLoop, if_neg (by decide), if_pos rfl]
    simp only [hnot, if_true]
    rw [if_neg hlen, hexLoop_hexDigit, hexLoop_hexDigit, hexLoop_hexDigit, hexLoop_hexDigit,
      hexLoop, Nat.zero_mul, Nat.zero_add]

private theorem stringLoop_chars (chars : List JsonChar) {fuel : ℕ} (hfuel : chars.length < fuel)
    (out tail : Bytes) : stringLoop fuel out (chars.flatMap JsonChar.text ++ 34 :: tail)
      = (some (out ++ chars.flatMap JsonChar.bytes), tail) := by
  obtain ⟨fuel, rfl⟩ := Nat.exists_eq_add_one_of_ne_zero (Nat.ne_zero_of_lt hfuel)
  induction chars generalizing fuel out with
  | nil => rw [List.flatMap_nil, List.flatMap_nil, List.nil_append, stringLoop_quote,
      List.append_nil]
  | cons c chars ih =>
    rw [List.length_cons] at hfuel
    obtain ⟨fuel, rfl⟩ := Nat.exists_eq_add_one_of_ne_zero (n := fuel) (by omega)
    rw [List.flatMap_cons, List.flatMap_cons, List.append_assoc, stringLoop_text,
      ih _ _ (by omega), List.append_assoc]

theorem JsonChar.text_ne_nil (c : JsonChar) : c.text ≠ [] := by
  cases c <;> exact List.cons_ne_nil _ _

private theorem length_le_length_text (chars : List JsonChar) :
    chars.length ≤ (chars.flatMap JsonChar.text).length := by
  induction chars with
  | nil => exact le_rfl
  | cons c chars ih =>
    have := List.length_pos_of_ne_nil c.text_ne_nil
    rw [List.flatMap_cons, List.length_append, List.length_cons]
    omega

/-- **A string is read.** -/
theorem parseString_text (s : JsonString) (tail : Bytes) :
    parseString (s.text ++ tail) = (some s.bytes, tail) := by
  have hlen := length_le_length_text s.chars
  rw [JsonString.text, List.cons_append, List.append_assoc, List.singleton_append, parseString,
    skipWs_cons (by decide)]
  simp only [if_true]
  rw [stringLoop_chars, List.nil_append, JsonString.bytes]
  rw [List.length_append, List.length_cons]
  omega

theorem parseString_blank {ws : Bytes} (h : Blank ws) (s : Bytes) :
    parseString (ws ++ s) = parseString s := by
  rw [parseString, parseString, skipWs_blank h]

theorem fieldsLoop_skipWs (fuel : ℕ) (o : List (Bytes × DynamicVariable)) (s : Bytes) :
    fieldsLoop (fuel + 1) o (skipWs s) = fieldsLoop (fuel + 1) o s := by
  have hparse : parseString (skipWs s) = parseString s := by
    rw [parseString, parseString, skipWs_skipWs]
  rw [fieldsLoop, fieldsLoop, hparse]

/-! ## Numbers

The loop of `parse_number` takes all digits and one point. What stands behind a number in a document
is none of them, unless the number has an exponent. -/

/-- What may stand behind a number. -/
def StopsNumber (tail : Bytes) : Prop := ∀ b ∈ tail.head?, isDigit b = false ∧ b ≠ 46

theorem stopsNumber_nil : StopsNumber [] := fun _ h ↦ (nomatch h)

theorem stopsNumber_cons {b : UInt8} (h : isDigit b = false ∧ b ≠ 46) (s : Bytes) :
    StopsNumber (b :: s) := by
  intro b' hb'
  rw [List.head?_cons, Option.mem_some_iff] at hb'
  exact hb' ▸ h

private theorem stopsNumber_blank (ws : Whitespace) {s : Bytes} (h : StopsNumber s) :
    StopsNumber (ws.text ++ s) := by
  cases hws : ws.text with
  | nil => exact h
  | cons b bs =>
    refine stopsNumber_cons ?_ (bs ++ s)
    rcases ws.isWs b (hws ▸ List.mem_cons_self) with rfl | rfl | rfl | rfl <;> decide

private theorem stopsNumber_exponent (e : Exponent) (s : Bytes) : StopsNumber (e.text ++ s) := by
  refine stopsNumber_cons ?_ (e.sign ++ e.digits.text ++ s)
  rcases e.isE with h | h <;> rw [h] <;> decide

theorem numberLoop_digits (dot : Bool) {digits : Bytes} (h : ∀ d ∈ digits, isDigit d = true)
    (s : Bytes) : numberLoop dot (digits ++ s) = numberLoop dot s := by
  induction digits with
  | nil => rfl
  | cons d digits ih =>
    rw [List.cons_append, numberLoop, if_pos (h d List.mem_cons_self)]
    exact ih fun d' hd' ↦ h d' (List.mem_cons_of_mem _ hd')

theorem numberLoop_of_stops (dot : Bool) {tail : Bytes} (h : StopsNumber tail) :
    numberLoop dot tail = tail := by
  cases tail with
  | nil => rfl
  | cons b s =>
    obtain ⟨hdigit, hpoint⟩ := h b rfl
    rw [numberLoop, if_neg (by rw [hdigit]; decide), if_neg (by simp [hpoint])]

theorem takeWhile_digits {digits : Bytes} (h : ∀ d ∈ digits, isDigit d = true) {tail : Bytes}
    (htail : ∀ b ∈ tail.head?, isDigit b = false) :
    (digits ++ tail).takeWhile isDigit = digits := by
  rw [List.takeWhile_append_of_pos h]
  cases tail with
  | nil => rw [List.takeWhile_nil, List.append_nil]
  | cons b s =>
    rw [List.takeWhile_cons_of_neg (by rw [htail b rfl]; decide), List.append_nil]

/-- How a number starts is not a space, and no other value starts so. -/
theorem starts_number : ∀ b : UInt8, (b = 45 ∨ isDigit b = true) → isSpace b = false ∧ b ≠ 34 ∧
    b ≠ 91 ∧ b ≠ 93 ∧ b ≠ 123 ∧ b ≠ 116 ∧ b ≠ 102 ∧ b ≠ 110 := by
  decide +kernel

namespace JsonNumber

variable (n : JsonNumber)

private theorem numberLoop_unsigned {tail : Bytes} (h : StopsNumber tail) :
    numberLoop false (n.int.text ++ (n.fracText ++ tail)) = tail := by
  rw [numberLoop_digits false n.int.isDigit, fracText]
  cases n.frac with
  | none => exact numberLoop_of_stops false h
  | some f =>
    rw [Option.elim_some, List.cons_append, numberLoop, if_neg (by decide), if_pos (by decide),
      numberLoop_digits true f.isDigit, numberLoop_of_stops true h]

/-- The first digit. -/
theorem int_text_cons : ∃ d s, n.int.text = d :: s ∧ isDigit d = true := by
  obtain ⟨d, s, hint⟩ := List.exists_cons_of_ne_nil n.int.ne_nil
  exact ⟨d, s, hint, n.int.isDigit d (hint ▸ List.mem_cons_self)⟩

/-- The first character is a minus or a digit. -/
theorem mantissaText_cons : ∃ b s, n.mantissaText = b :: s ∧ (b = 45 ∨ isDigit b = true) := by
  obtain ⟨d, s, hint, hdigit⟩ := n.int_text_cons
  rw [mantissaText, sign, hint]
  by_cases hminus : n.minus = true
  · rw [if_pos hminus]
    exact ⟨45, _, rfl, Or.inl rfl⟩
  · rw [if_neg hminus]
    exact ⟨d, _, rfl, Or.inr hdigit⟩

private theorem stod_mantissaText : stod n.mantissaText = toDouble n.mantissa := by
  obtain ⟨d, s, hint, hdigit⟩ := n.int_text_cons
  have hwhole : (n.int.text ++ n.fracText).takeWhile isDigit = n.int.text := by
    refine takeWhile_digits n.int.isDigit ?_
    rw [fracText]
    cases n.frac with
    | none => exact fun b hb ↦ (nomatch hb)
    | some f =>
      intro b hb
      rw [Option.elim_some, List.head?_cons, Option.mem_some_iff] at hb
      exact hb ▸ rfl
  have hfraction : ((n.int.text ++ n.fracText).drop (n.int.text.length + 1)).takeWhile isDigit
      = n.fracDigits := by
    rw [List.drop_append, List.drop_eq_nil_of_le (Nat.le_succ _), List.nil_append,
      Nat.add_sub_cancel_left, fracText, fracDigits]
    cases n.frac with
    | none => rfl
    | some f =>
      have hdigits := @takeWhile_digits f.text f.isDigit [] fun b hb ↦ (nomatch hb)
      rw [List.append_nil] at hdigits
      exact hdigits
  have hne : (n.int.text.isEmpty && n.fracDigits.isEmpty) = false := by
    rw [hint]
    rfl
  have hhead : ∀ b, isDigit b = false → (n.int.text ++ n.fracText).head? ≠ some b := by
    rw [hint]
    rintro b hb heq
    obtain rfl := Option.some.inj heq
    exact absurd hdigit (by rw [hb]; decide)
  rw [stod, mantissa]
  by_cases hminus : n.minus = true
  · have htext : n.mantissaText = 45 :: (n.int.text ++ n.fracText) := by
      rw [mantissaText, sign, if_pos hminus]
      rfl
    simp only [htext, List.head?_cons, decide_true, Bool.true_or, if_true, List.tail_cons, hwhole,
      hfraction, hne, hminus, Bool.false_eq_true, if_false]
  · have htext : n.mantissaText = n.int.text ++ n.fracText := by
      rw [mantissaText, sign, if_neg hminus]
      rfl
    simp only [htext, hhead 45 (by decide), hhead 43 (by decide), decide_false, Bool.or_false,
      Bool.false_eq_true, if_false, hwhole, hfraction, hne, hminus]

/-- **A number is read up to its exponent.** -/
theorem parseNumber_mantissaText {tail : Bytes} (h : StopsNumber tail) :
    parseNumber (n.mantissaText ++ tail) = (toDouble n.mantissa, tail) := by
  have hrest : numberLoop false
      (if (n.mantissaText ++ tail).head? = some 45 || (n.mantissaText ++ tail).head? = some 43
        then (n.mantissaText ++ tail).tail else n.mantissaText ++ tail) = tail := by
    by_cases hminus : n.minus = true
    · have htext : n.mantissaText ++ tail = 45 :: (n.int.text ++ (n.fracText ++ tail)) := by
        rw [mantissaText, sign, if_pos hminus, List.append_assoc, List.append_assoc,
          List.singleton_append]
      rw [htext]
      exact n.numberLoop_unsigned h
    · have htext : n.mantissaText ++ tail = n.int.text ++ (n.fracText ++ tail) := by
        rw [mantissaText, sign, if_neg hminus, List.nil_append, List.append_assoc]
      obtain ⟨d, s, hint, hdigit⟩ := n.int_text_cons
      have hne : ∀ b, isDigit b = false → d ≠ b := by
        rintro b hb rfl
        exact absurd hdigit (by rw [hb]; decide)
      rw [htext, if_neg (by simp [hint, hne 45 (by decide), hne 43 (by decide)])]
      exact n.numberLoop_unsigned h
  obtain ⟨b, s, hcons, hb⟩ := n.mantissaText_cons
  have hskip : skipWs (n.mantissaText ++ tail) = n.mantissaText ++ tail := by
    rw [hcons, List.cons_append]
    exact skipWs_cons ((starts_number b hb).1) _
  have hlen : tail.length ≠ (n.mantissaText ++ tail).length := by
    rw [hcons, List.length_append, List.length_cons]
    omega
  rw [parseNumber, hskip]
  simp only [hrest]
  rw [if_neg hlen, List.length_append, Nat.add_sub_cancel, List.take_left, stod_mantissaText]

end JsonNumber

theorem isPrefixOf_of_ne {b ch : UInt8} (h : b ≠ ch) (word s : Bytes) :
    (ch :: word).isPrefixOf (b :: s) = false := by
  rw [List.isPrefixOf_cons_cons, beq_eq_false_iff_ne.mpr h.symm, Bool.false_and]

private theorem parseValue_mantissaText (n : JsonNumber) {tail : Bytes} (h : StopsNumber tail)
    (fuel : ℕ) : parseValue (fuel + 1) (n.mantissaText ++ tail)
      = ((toDouble n.mantissa).map DynamicVariable.number, tail) := by
  have hread := n.parseNumber_mantissaText h
  obtain ⟨b, s, hcons, hb⟩ := n.mantissaText_cons
  obtain ⟨hspace, hquote, hbracket, -, hbrace, ht, hf, hn⟩ := starts_number b hb
  have htrue : (ascii "true").isPrefixOf (b :: (s ++ tail)) = false := isPrefixOf_of_ne ht _ _
  have hfalse : (ascii "false").isPrefixOf (b :: (s ++ tail)) = false := isPrefixOf_of_ne hf _ _
  have hnull : (ascii "null").isPrefixOf (b :: (s ++ tail)) = false := isPrefixOf_of_ne hn _ _
  rw [hcons, List.cons_append] at hread ⊢
  rw [parseValue, skipWs_cons hspace]
  simp only [if_neg hquote, if_neg hbrace, if_neg hbracket, htrue, hfalse, hnull,
    Bool.false_eq_true, if_false, hread]
  cases toDouble n.mantissa <;> rfl

/-! ## Values

By induction on the syntax tree, in front of any text that may follow a value. A number that is out
of range makes `stod` throw, and an exponent is left standing where a comma or a bracket should be;
either way nothing is read. -/

/-- Nothing has been read, or there is an exponent next. -/
def Stuck (res : Option DynamicVariable × Bytes) : Prop :=
  res.1 = none ∨ ∃ b s, res.2 = b :: s ∧ (b = 101 ∨ b = 69)

/-- What comes of reading a text with these numbers, in front of `tail`. -/
inductive Reads (numbers : List JsonNumber) (v : DynamicVariable) (tail : Bytes)
    (res : Option DynamicVariable × Bytes) : Prop
  | read (hall : ∀ n ∈ numbers, n.Readable) (h : res = (some v, tail))
  | stuck (hsome : ¬∀ n ∈ numbers, n.Readable) (h : Stuck res)

private theorem matchChar_exponent {ch b : UInt8} (hb : b = 101 ∨ b = 69) (hch : ch ≠ 101 ∧ ch ≠ 69)
    (s : Bytes) : matchChar ch (b :: s) = (false, b :: s) := by
  rcases hb with rfl | rfl
  · exact matchChar_of_ne (by decide) hch.1.symm s
  · exact matchChar_of_ne (by decide) hch.2.symm s

/-- The last item. -/
theorem itemsLoop_last {fuel : ℕ} {s tail : Bytes} {v : DynamicVariable} {after : Whitespace}
    (h : parseValue fuel s = (some v, after.text ++ 93 :: tail)) (a : List DynamicVariable) :
    itemsLoop (fuel + 1) a s = (some (.array (a ++ [v])), tail) := by
  rw [itemsLoop, h]
  simp only
  rw [matchChar_close after.blank (by decide)]

/-- An item with others behind it. -/
theorem itemsLoop_more {fuel : ℕ} {s rest : Bytes} {v : DynamicVariable} {after : Whitespace}
    (h : parseValue fuel s = (some v, after.text ++ 44 :: rest)) (a : List DynamicVariable) :
    itemsLoop (fuel + 1) a s = itemsLoop fuel (a ++ [v]) rest := by
  rw [itemsLoop, h]
  simp only
  rw [skipWs_blank after.blank, matchChar_comma (by decide)]
  simp only
  rw [matchChar_self (by decide)]

/-- An array with an item that cannot be read is not read. -/
theorem itemsLoop_stuck {fuel : ℕ} {s : Bytes} (h : Stuck (parseValue fuel s))
    (a : List DynamicVariable) : Stuck (itemsLoop (fuel + 1) a s) := by
  rw [itemsLoop]
  generalize parseValue fuel s = res at h ⊢
  obtain ⟨v, rest⟩ := res
  cases v with
  | none => exact Or.inl rfl
  | some elem =>
    obtain ⟨b, rest, rfl, hb⟩ := h.resolve_left (Option.some_ne_none elem)
    simp only
    rw [matchChar_skipWs, matchChar_exponent hb (by decide)]
    simp only
    rw [matchChar_exponent hb (by decide)]
    exact Or.inl rfl

/-- The key of a field and its colon. -/
theorem fieldsLoop_key (before beforeColon : Whitespace) (key : JsonString) (s : Bytes) :
    ∃ s', parseString (before.text ++ (key.text ++ (beforeColon.text ++ 58 :: s)))
      = (some key.bytes, s') ∧ matchChar 58 s' = (true, s) := by
  refine ⟨beforeColon.text ++ 58 :: s, ?_, ?_⟩
  · rw [parseString_blank before.blank, parseString_text]
  · rw [matchChar_blank beforeColon.blank, matchChar_self (by decide)]

private theorem fieldsLoop_last {fuel : ℕ} {s tail : Bytes} {v : DynamicVariable}
    {after : Whitespace}
    (h : parseValue fuel s = (some v, after.text ++ 125 :: tail)) (before beforeColon : Whitespace)
    (key : JsonString) (o : List (Bytes × DynamicVariable)) :
    fieldsLoop (fuel + 1) o (before.text ++ (key.text ++ (beforeColon.text ++ 58 :: s)))
      = (some (.object (emplace key.bytes v o)), tail) := by
  obtain ⟨s', hkey, hcolon⟩ := fieldsLoop_key before beforeColon key s
  rw [fieldsLoop, hkey]
  simp only
  rw [hcolon]
  simp only
  rw [h]
  simp only
  rw [matchChar_close after.blank (by decide)]

private theorem fieldsLoop_more {fuel : ℕ} {s rest : Bytes} {v : DynamicVariable}
    {after : Whitespace}
    (h : parseValue fuel s = (some v, after.text ++ 44 :: rest)) (before beforeColon : Whitespace)
    (key : JsonString) (o : List (Bytes × DynamicVariable)) :
    fieldsLoop (fuel + 1) o (before.text ++ (key.text ++ (beforeColon.text ++ 58 :: s)))
      = fieldsLoop fuel (emplace key.bytes v o) rest := by
  obtain ⟨s', hkey, hcolon⟩ := fieldsLoop_key before beforeColon key s
  rw [fieldsLoop, hkey]
  simp only
  rw [hcolon]
  simp only
  rw [h]
  simp only
  rw [skipWs_blank after.blank, matchChar_comma (by decide)]
  simp only
  rw [matchChar_self (by decide)]

private theorem fieldsLoop_stuck {fuel : ℕ} {s : Bytes} (h : Stuck (parseValue fuel s))
    (before beforeColon : Whitespace) (key : JsonString) (o : List (Bytes × DynamicVariable)) :
    Stuck (fieldsLoop (fuel + 1) o
      (before.text ++ (key.text ++ (beforeColon.text ++ 58 :: s)))) := by
  obtain ⟨s', hkey, hcolon⟩ := fieldsLoop_key before beforeColon key s
  rw [fieldsLoop, hkey]
  simp only
  rw [hcolon]
  simp only
  generalize parseValue fuel s = res at h ⊢
  obtain ⟨v, rest⟩ := res
  cases v with
  | none => exact Or.inl rfl
  | some val =>
    obtain ⟨b, rest, rfl, hb⟩ := h.resolve_left (Option.some_ne_none val)
    simp only
    rw [matchChar_skipWs, matchChar_exponent hb (by decide)]
    simp only
    rw [matchChar_exponent hb (by decide)]
    exact Or.inl rfl

/-- A value starts with a character that is neither a space nor a closing bracket. -/
theorem JsonValue.text_cons (v : JsonValue) :
    ∃ b s, v.text = b :: s ∧ isSpace b = false ∧ b ≠ 93 := by
  cases v with
  | null => exact ⟨_, _, rfl, by decide, by decide⟩
  | bool b => cases b <;> exact ⟨_, _, rfl, by decide, by decide⟩
  | number n =>
    obtain ⟨b, s, hcons, hb⟩ := n.mantissaText_cons
    obtain ⟨hspace, -, -, hclose, -⟩ := starts_number b hb
    rw [JsonValue.text, JsonNumber.text, hcons]
    exact ⟨b, _, rfl, hspace, hclose⟩
  | string s => exact ⟨_, _, rfl, by decide, by decide⟩
  | emptyArray ws => exact ⟨_, _, rfl, by decide, by decide⟩
  | array items => exact ⟨_, _, rfl, by decide, by decide⟩
  | emptyObject ws => exact ⟨_, _, rfl, by decide, by decide⟩
  | object members => exact ⟨_, _, rfl, by decide, by decide⟩

/-- The items do not look like the end of the array. -/
theorem skipWs_items (items : JsonItems) (tail : Bytes) :
    ∃ b s, skipWs (items.text ++ tail) = b :: s ∧ b ≠ 93 := by
  obtain ⟨before, v, rest, htext⟩ : ∃ (before : Whitespace) (v : JsonValue) (rest : Bytes),
      items.text = before.text ++ (v.text ++ rest) := by
    cases items with
    | last before v after => exact ⟨before, v, after.text, by simp [JsonItems.text]⟩
    | cons before v after more =>
      exact ⟨before, v, after.text ++ 44 :: more.text, by simp [JsonItems.text]⟩
  obtain ⟨b, s, hcons, hspace, hclose⟩ := v.text_cons
  rw [htext, List.append_assoc, skipWs_blank before.blank, hcons, List.cons_append,
    List.cons_append, skipWs_cons hspace]
  exact ⟨b, _, rfl, hclose⟩

/-- The members do not look like the end of the object. -/
theorem skipWs_members (members : JsonMembers) (tail : Bytes) :
    ∃ s, skipWs (members.text ++ tail) = 34 :: s := by
  obtain ⟨before, rest, htext⟩ : ∃ (before : Whitespace) (rest : Bytes),
      members.text = before.text ++ 34 :: rest := by
    cases members with
    | last before key beforeColon afterColon v after =>
      simp only [JsonMembers.text, JsonString.text, List.append_assoc, List.cons_append]
      exact ⟨before, _, rfl⟩
    | cons before key beforeColon afterColon v after more =>
      simp only [JsonMembers.text, JsonString.text, List.append_assoc, List.cons_append]
      exact ⟨before, _, rfl⟩
  rw [htext, List.append_assoc, skipWs_blank before.blank, List.cons_append,
    skipWs_cons (by decide)]
  exact ⟨_, rfl⟩

theorem JsonNumber.value_of_exp_eq_none {n : JsonNumber} (h : n.exp = none) :
    n.value = n.mantissa := by
  rw [JsonNumber.value, h, Option.elim_none, zpow_zero, mul_one]

/-- A number is read, unless it has an exponent or is out of range. -/
theorem parseValue_number (n : JsonNumber) {tail : Bytes} (h : StopsNumber tail) (fuel : ℕ) :
    Reads [n] (.number ((toDouble n.value).getD 0)) tail
      (parseValue (fuel + 1) (n.text ++ tail)) := by
  rw [JsonNumber.text]
  cases hexp : n.exp with
  | some e =>
    refine .stuck (fun hall ↦ ?_) (Or.inr ?_)
    · obtain ⟨hnone, -⟩ := hall n List.mem_cons_self
      rw [hexp] at hnone
      exact Option.some_ne_none e hnone
    · rw [Option.elim_some, List.append_assoc,
        parseValue_mantissaText n (stopsNumber_exponent e tail)]
      exact ⟨e.letter, _, rfl, e.isE⟩
  | none =>
    rw [Option.elim_none, List.append_nil, parseValue_mantissaText n h,
      n.value_of_exp_eq_none hexp]
    cases hdouble : toDouble n.mantissa with
    | some d =>
      refine .read (fun m hm ↦ ?_) rfl
      rw [List.mem_singleton.mp hm]
      exact ⟨hexp, by rw [n.value_of_exp_eq_none hexp, hdouble, Option.isSome_some]⟩
    | none =>
      refine .stuck (fun hall ↦ ?_) (Or.inl rfl)
      obtain ⟨-, hsome⟩ := hall n List.mem_cons_self
      rw [n.value_of_exp_eq_none hexp, hdouble] at hsome
      exact Bool.false_ne_true hsome

private theorem Reads.of_append_left {numbers numbers' : List JsonNumber} {tail : Bytes}
    {v : DynamicVariable} {res : Option DynamicVariable × Bytes}
    (hsome : ¬∀ n ∈ numbers, n.Readable) (h : Stuck res) : Reads (numbers ++ numbers') v tail res :=
  .stuck (fun hall ↦ hsome fun n hn ↦ hall n (List.mem_append_left _ hn)) h

theorem Reads.append {numbers numbers' : List JsonNumber} {tail : Bytes} {v : DynamicVariable}
    {res : Option DynamicVariable × Bytes} (hall : ∀ n ∈ numbers, n.Readable)
    (h : Reads numbers' v tail res) : Reads (numbers ++ numbers') v tail res := by
  rcases h with ⟨hall', h⟩ | ⟨hsome, h⟩
  · exact .read (List.forall_mem_append.mpr ⟨hall, hall'⟩) h
  · exact .stuck (fun hboth ↦ hsome (List.forall_mem_append.mp hboth).2) h

mutual

/-- **A value is read**, whatever stands behind it, if its numbers are readable. -/
theorem parseValue_text : ∀ (v : JsonValue) {tail : Bytes}, StopsNumber tail → ∀ (fuel : ℕ),
    3 * v.text.length + 1 ≤ fuel →
    Reads v.numbers v.dynamic tail (parseValue fuel (v.text ++ tail))
  | .null, _, _, fuel + 1, _ => .read (fun _ h ↦ (nomatch h)) rfl
  | .bool b, _, _, fuel + 1, _ => by
    refine .read (fun _ h ↦ (nomatch h)) ?_
    cases b <;> rfl
  | .number n, _, htail, fuel + 1, _ => parseValue_number n htail fuel
  | .string s, tail, _, fuel + 1, _ => by
    refine .read (fun _ h ↦ (nomatch h)) ?_
    have hread := parseString_text s tail
    rw [JsonValue.text, JsonValue.dynamic]
    rw [JsonString.text, List.cons_append] at hread ⊢
    rw [parseValue, skipWs_cons (by decide)]
    simp only [if_true, hread]
  | .emptyArray ws, tail, _, fuel, hfuel => by
    obtain ⟨fuel, rfl⟩ : ∃ f, fuel = f + 2 := ⟨fuel - 2, by simp [JsonValue.text] at hfuel; omega⟩
    refine .read (fun _ h ↦ (nomatch h)) ?_
    rw [JsonValue.text, JsonValue.dynamic, List.cons_append, List.append_assoc,
      List.singleton_append, parseValue_bracket, matchChar_close ws.blank (by decide)]
  | .array items, tail, _, fuel, hfuel => by
    simp only [JsonValue.text, List.length_cons, List.length_append, List.length_nil] at hfuel
    obtain ⟨fuel, rfl⟩ : ∃ f, fuel = f + 2 + 2 := ⟨fuel - 4, by omega⟩
    have hread := itemsLoop_text items [] tail (fuel + 2) (by omega)
    obtain ⟨b, s, hskip, hne⟩ := skipWs_items items (93 :: tail)
    rw [JsonValue.text, JsonValue.dynamic, List.cons_append, List.append_assoc,
      List.singleton_append, parseValue_bracket, matchChar_of_skipWs hskip hne]
    simp only
    rw [itemsLoop_skipWs]
    exact hread
  | .emptyObject ws, tail, _, fuel, hfuel => by
    obtain ⟨fuel, rfl⟩ : ∃ f, fuel = f + 2 := ⟨fuel - 2, by simp [JsonValue.text] at hfuel; omega⟩
    refine .read (fun _ h ↦ (nomatch h)) ?_
    rw [JsonValue.text, JsonValue.dynamic, List.cons_append, List.append_assoc,
      List.singleton_append, parseValue_brace, matchChar_close ws.blank (by decide)]
  | .object members, tail, _, fuel, hfuel => by
    simp only [JsonValue.text, List.length_cons, List.length_append, List.length_nil] at hfuel
    obtain ⟨fuel, rfl⟩ : ∃ f, fuel = f + 1 + 2 := ⟨fuel - 3, by omega⟩
    have hread := fieldsLoop_text members [] tail (fuel + 1) (by omega)
    obtain ⟨s, hskip⟩ := skipWs_members members (125 :: tail)
    rw [JsonValue.text, JsonValue.dynamic, List.cons_append, List.append_assoc,
      List.singleton_append, parseValue_brace, matchChar_of_skipWs hskip (by decide)]
    simp only
    rw [fieldsLoop_skipWs]
    exact hread

/-- The items of an array are read. -/
theorem itemsLoop_text : ∀ (items : JsonItems) (a : List DynamicVariable) (tail : Bytes)
    (fuel : ℕ), 3 * items.text.length + 2 ≤ fuel →
    Reads items.numbers (.array (a ++ items.dynamic)) tail
      (itemsLoop fuel a (items.text ++ 93 :: tail))
  | .last before v after, a, tail, fuel, hfuel => by
    simp only [JsonItems.text, List.length_append] at hfuel
    obtain ⟨fuel, rfl⟩ : ∃ f, fuel = f + 1 + 1 := ⟨fuel - 2, by omega⟩
    have hread := parseValue_text v
      (stopsNumber_blank after (stopsNumber_cons (b := 93) (by decide) tail)) (fuel + 1) (by omega)
    rw [← parseValue_blank before.blank] at hread
    simp only [JsonItems.text, JsonItems.numbers, JsonItems.dynamic, List.append_assoc]
    rcases hread with ⟨hall, h⟩ | ⟨hsome, h⟩
    · exact .read hall (itemsLoop_last h a)
    · exact .stuck hsome (itemsLoop_stuck h a)
  | .cons before v after more, a, tail, fuel, hfuel => by
    simp only [JsonItems.text, List.length_append, List.length_cons] at hfuel
    obtain ⟨fuel, rfl⟩ : ∃ f, fuel = f + 1 + 1 := ⟨fuel - 2, by omega⟩
    have hread := parseValue_text v (stopsNumber_blank after
      (stopsNumber_cons (b := 44) (by decide) (more.text ++ 93 :: tail))) (fuel + 1) (by omega)
    rw [← parseValue_blank before.blank] at hread
    simp only [JsonItems.text, JsonItems.numbers, JsonItems.dynamic, List.append_assoc,
      List.cons_append]
    rcases hread with ⟨hall, h⟩ | ⟨hsome, h⟩
    · refine Reads.append hall ?_
      have hmore := itemsLoop_text more (a ++ [v.dynamic]) tail (fuel + 1) (by omega)
      rw [List.append_assoc, List.singleton_append] at hmore
      rw [itemsLoop_more h]
      exact hmore
    · exact Reads.of_append_left hsome (itemsLoop_stuck h a)

/-- The fields of an object are read. -/
theorem fieldsLoop_text : ∀ (members : JsonMembers) (o : List (Bytes × DynamicVariable))
    (tail : Bytes) (fuel : ℕ), 3 * members.text.length + 2 ≤ fuel →
    Reads members.numbers (.object (members.dynamic o)) tail
      (fieldsLoop fuel o (members.text ++ 125 :: tail))
  | .last before key beforeColon afterColon v after, o, tail, fuel, hfuel => by
    simp only [JsonMembers.text, List.length_append, List.length_cons] at hfuel
    obtain ⟨fuel, rfl⟩ : ∃ f, fuel = f + 1 + 1 := ⟨fuel - 2, by omega⟩
    have hread := parseValue_text v
      (stopsNumber_blank after (stopsNumber_cons (b := 125) (by decide) tail)) (fuel + 1) (by omega)
    rw [← parseValue_blank afterColon.blank] at hread
    simp only [JsonMembers.text, JsonMembers.numbers, JsonMembers.dynamic, List.append_assoc,
      List.cons_append]
    rcases hread with ⟨hall, h⟩ | ⟨hsome, h⟩
    · exact .read hall (fieldsLoop_last h before beforeColon key o)
    · exact .stuck hsome (fieldsLoop_stuck h before beforeColon key o)
  | .cons before key beforeColon afterColon v after more, o, tail, fuel, hfuel => by
    simp only [JsonMembers.text, List.length_append, List.length_cons] at hfuel
    obtain ⟨fuel, rfl⟩ : ∃ f, fuel = f + 1 + 1 := ⟨fuel - 2, by omega⟩
    have hread := parseValue_text v (stopsNumber_blank after
      (stopsNumber_cons (b := 44) (by decide) (more.text ++ 125 :: tail))) (fuel + 1) (by omega)
    rw [← parseValue_blank afterColon.blank] at hread
    simp only [JsonMembers.text, JsonMembers.numbers, JsonMembers.dynamic, List.append_assoc,
      List.cons_append]
    rcases hread with ⟨hall, h⟩ | ⟨hsome, h⟩
    · refine Reads.append hall ?_
      have hmore := fieldsLoop_text more (emplace key.bytes v.dynamic o) tail (fuel + 1) (by omega)
      rw [fieldsLoop_more h]
      exact hmore
    · exact Reads.of_append_left hsome (fieldsLoop_stuck h before beforeColon key o)

end

/-! ## Documents

Behind the value only white space may be left. So a number with an exponent at the very end is not
accepted either. -/

private theorem parseValue_document (d : Document) :
    Reads d.value.numbers d.value.dynamic d.after.text
    (parseValue (3 * d.text.length + 1) d.text) := by
  have hstops : StopsNumber d.after.text := by
    have hafter := stopsNumber_blank d.after stopsNumber_nil
    rwa [List.append_nil] at hafter
  have hlen : 3 * d.value.text.length + 1 ≤ 3 * d.text.length + 1 := by
    rw [Document.text, List.length_append, List.length_append]
    omega
  have hread := parseValue_text d.value hstops _ hlen
  rwa [← parseValue_blank d.before.blank, ← Document.text] at hread

theorem parseJson_of_readable {d : Document} (hall : ∀ n ∈ d.value.numbers, n.Readable) :
    parseJson d.text = .ok d.value.dynamic := by
  rcases parseValue_document d with ⟨-, h⟩ | ⟨hsome, -⟩
  · have hafter : skipWs d.after.text = [] := by
      have hskip := skipWs_blank d.after.blank []
      rwa [List.append_nil] at hskip
    rw [parseJson, h]
    simp only [hafter, List.isEmpty_nil, if_true]
  · exact absurd hall hsome

theorem readable_of_parseJson {d : Document} {v : DynamicVariable}
    (h : parseJson d.text = .ok v) : ∀ n ∈ d.value.numbers, n.Readable := by
  rcases parseValue_document d with ⟨hall, -⟩ | ⟨-, hstuck⟩
  · exact hall
  · exfalso
    rw [parseJson] at h
    generalize parseValue (3 * d.text.length + 1) d.text = res at h hstuck
    obtain ⟨v', rest⟩ := res
    cases v' with
    | none => exact absurd h (by simp)
    | some v' =>
      -- the exponent is not consumed
      obtain ⟨b, rest, rfl, hb⟩ := hstuck.resolve_left (Option.some_ne_none v')
      have hspace : isSpace b = false := by rcases hb with rfl | rfl <;> decide
      simp only [skipWs_cons hspace, List.isEmpty_cons, Bool.false_eq_true, if_false] at h
      exact absurd h (by simp)

/-- **A document is accepted exactly if no number of it has an exponent**, and all are in range. -/
theorem parseJson_document (d : Document) :
    (∃ v, parseJson d.text = .ok v) ↔ ∀ n ∈ d.value.numbers, n.Readable := by
  constructor
  · rintro ⟨v, hv⟩
    exact readable_of_parseJson hv
  · intro hall
    exact ⟨_, parseJson_of_readable hall⟩

/-- `1e5` -/
def oneExponent : JsonNumber where
  minus := false
  int := oneDigit 49 (by decide)
  noLeadingZero := fun h ↦ absurd h (by decide)
  frac := none
  exp := some ⟨101, Exponent.isE_small, [], Or.inl rfl, oneDigit 53 (by decide)⟩

def exponentDocument : Document := ⟨noSpace, .number oneExponent, noSpace⟩

/-- The text `1e5` is a document, and a `double` holds the number. -/
theorem not_parseJson_exponentDocument :
    exponentDocument.text = ascii "1e5"
      ∧ (∀ n ∈ exponentDocument.value.numbers, (toDouble n.value).isSome = true)
      ∧ ¬∃ v, parseJson exponentDocument.text = .ok v := by
  have herror : (parseJson (ascii "1e5")).toOption.isNone = true := by decide +kernel
  have hdouble : (toDouble oneExponent.value).isSome = true := by decide +kernel
  have htext : exponentDocument.text = ascii "1e5" := by decide +kernel
  refine ⟨htext, fun n hn ↦ ?_, ?_⟩
  · rwa [List.mem_singleton.mp hn]
  · rintro ⟨v, hv⟩
    rw [htext] at hv
    rw [hv] at herror
    exact Bool.false_ne_true herror

end Wasapi.Json
