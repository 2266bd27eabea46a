import Wasapi.Json.LooseGrammar

/-!
# Strings and numbers of the loose grammar

`parse_string` and `parse_number` read the strings and numbers of the loose grammar, and what they
have read is one.
-/

namespace Wasapi.Json

variable {s tail rest : Bytes}

/-! ## Strings

Both directions are inductions on the text. What is read without an error has its closing quote, and
in front of it only characters of the grammar. -/

theorem LooseChar.stringLoop_text (c : LooseChar) (fuel : ℕ) (out s : Bytes) :
    stringLoop (fuel + 1) out (c.text ++ s) = stringLoop fuel (out ++ c.bytes) s := by
  cases c with
  | json c => exact Json.stringLoop_text c fuel out s
  | control b h =>
    have hne : ∀ b : UInt8, b < 0x20 → b ≠ 34 ∧ b ≠ 92 := by decide +kernel
    exact stringLoop_of_ne (hne b h).1 (hne b h).2 fuel out s

theorem LooseChar.text_ne_nil (c : LooseChar) : c.text ≠ [] := by
  cases c with
  | json c => exact c.text_ne_nil
  | control b h => exact List.cons_ne_nil _ _

private theorem stringLoop_looseChars (chars : List LooseChar) {fuel : ℕ}
    (hfuel : (chars.flatMap LooseChar.text).length < fuel) (out tail : Bytes) :
    stringLoop fuel out (chars.flatMap LooseChar.text ++ 34 :: tail)
      = (some (out ++ chars.flatMap LooseChar.bytes), tail) := by
  induction chars generalizing fuel out with
  | nil =>
    obtain ⟨fuel, rfl⟩ := Nat.exists_eq_add_one_of_ne_zero (Nat.ne_zero_of_lt hfuel)
    rw [List.flatMap_nil, List.flatMap_nil, List.nil_append, stringLoop_quote, List.append_nil]
  | cons c chars ih =>
    obtain ⟨fuel, rfl⟩ := Nat.exists_eq_add_one_of_ne_zero (Nat.ne_zero_of_lt hfuel)
    have hpos := List.length_pos_of_ne_nil c.text_ne_nil
    rw [List.flatMap_cons, List.length_append] at hfuel
    rw [List.flatMap_cons, List.flatMap_cons, List.append_assoc, c.stringLoop_text,
      ih (by omega), List.append_assoc]

/-- **A string is read.** -/
theorem parseString_quoted {ws : Bytes} (hws : Blank ws) (chars : List LooseChar) (tail : Bytes) :
    parseString (ws ++ (quoted chars ++ tail)) =
      (some (chars.flatMap LooseChar.bytes), tail) := by
  rw [parseString_blank hws, quoted, List.cons_append, List.append_assoc, List.singleton_append,
    parseString, skipWs_cons (by decide)]
  simp only [if_true]
  rw [stringLoop_looseChars, List.nil_append]
  rw [List.length_append, List.length_cons]
  omega

private theorem isHex_of_hexValue : ∀ (b : UInt8), (hexValue b).isSome = true →
    (48 ≤ b ∧ b ≤ 57) ∨ (97 ≤ b ∧ b ≤ 102) ∨ (65 ≤ b ∧ b ≤ 70) := by
  decide +kernel

private theorem mem_of_simpleEscape : ∀ (b : UInt8), (simpleEscape b).isSome = true →
    b ∈ ascii "\"\\/bfnrt" := by
  decide +kernel

/-- One digit of an escape. -/
theorem hexDigit_of_hexLoop {k n m : ℕ} (h : hexLoop (k + 1) n s = (some m, rest)) :
    ∃ (d : HexDigit) (s' : Bytes), s = d.byte :: s' ∧
      hexLoop k (n * 16 + (hexValue d.byte).getD 0) s' = (some m, rest) := by
  cases s with
  | nil => cases h
  | cons b s =>
    rw [hexLoop] at h
    cases hb : hexValue b with
    | none =>
      rw [hb] at h
      cases h
    | some digit =>
      rw [hb] at h
      refine ⟨⟨b, isHex_of_hexValue b (by rw [hb]; rfl)⟩, s, rfl, ?_⟩
      rw [hb]
      exact h

/-- **A string that is read** ends with its quote, and every escape in it is complete. -/
theorem exists_chars_of_stringLoop {fuel : ℕ} {out str : Bytes}
    (h : stringLoop fuel out s = (some str, rest)) :
    ∃ chars : List LooseChar, s = chars.flatMap LooseChar.text ++ 34 :: rest ∧
      str = out ++ chars.flatMap LooseChar.bytes := by
  induction fuel generalizing out s with
  | zero => cases h
  | succ fuel ih =>
    -- a character, and what is read behind it
    have hcons {out' s' : Bytes} (c : LooseChar) (hs : s = c.text ++ s')
        (hout : out' = out ++ c.bytes) (h : stringLoop fuel out' s' = (some str, rest)) :
        ∃ chars : List LooseChar, s = chars.flatMap LooseChar.text ++ 34 :: rest ∧
          str = out ++ chars.flatMap LooseChar.bytes := by
      obtain ⟨chars, hs', hstr⟩ := ih h
      refine ⟨c :: chars, ?_, ?_⟩
      · rw [hs, hs', List.flatMap_cons, List.append_assoc]
      · rw [hstr, hout, List.flatMap_cons, List.append_assoc]
    cases s with
    | nil => cases h
    | cons ch s =>
    rw [stringLoop.eq_def] at h
    dsimp only at h
    by_cases hquote : ch = 34
    · rw [if_pos hquote] at h
      cases h
      exact ⟨[], by rw [hquote]; rfl, (List.append_nil _).symm⟩
    rw [if_neg hquote] at h
    by_cases hbackslash : ch = 92
    · rw [if_pos hbackslash] at h
      cases s with
      | nil => cases h
      | cons esc s =>
      dsimp only at h
      cases hesc : simpleEscape esc with
      | some b =>
        rw [hesc] at h
        refine hcons (.json (.escape esc (mem_of_simpleEscape esc (by rw [hesc]; rfl)))) ?_ ?_ h
        · rw [hbackslash]
          rfl
        · rw [LooseChar.bytes, JsonChar.bytes, hesc]
          rfl
      | none =>
        rw [hesc] at h
        dsimp only at h
        split at h
        · next hu =>
          split at h
          · cases h
          split at h
          · cases h
          next n s' hhex =>
          obtain ⟨d₁, s₁, hs, hhex⟩ := hexDigit_of_hexLoop hhex
          obtain ⟨d₂, s₂, hs₁, hhex⟩ := hexDigit_of_hexLoop hhex
          obtain ⟨d₃, s₃, hs₂, hhex⟩ := hexDigit_of_hexLoop hhex
          obtain ⟨d₄, s₄, hs₃, hhex⟩ := hexDigit_of_hexLoop hhex
          cases hhex
          refine hcons (.json (.unicode d₁ d₂ d₃ d₄)) ?_ ?_ h
          · rw [hbackslash, hu, hs, hs₁, hs₂, hs₃]
            rfl
          · rw [LooseChar.bytes, JsonChar.bytes, Nat.zero_mul, Nat.zero_add]
        · cases h
    · rw [if_neg hbackslash] at h
      by_cases hcontrol : ch < 0x20
      · exact hcons (.control ch hcontrol) rfl rfl h
      · exact hcons (.json (.unescaped ch ⟨UInt8.not_lt.mp hcontrol, hquote, hbackslash⟩)) rfl rfl h

theorem exists_skipWs (s : Bytes) : ∃ ws, Blank ws ∧ s = ws ++ skipWs s :=
  ⟨s.takeWhile isSpace, fun _ hb ↦ (List.mem_takeWhile_imp hb),
    (List.takeWhile_append_dropWhile).symm⟩

theorem exists_quoted_of_parseString {str : Bytes} (h : parseString s = (some str, rest)) :
    ∃ ws chars, Blank ws ∧ s = ws ++ (quoted chars ++ rest) ∧
      str = chars.flatMap LooseChar.bytes := by
  obtain ⟨ws, hws, hs⟩ := exists_skipWs s
  rw [parseString] at h
  cases hskip : skipWs s with
  | nil =>
    rw [hskip] at h
    cases h
  | cons b s' =>
    rw [hskip] at h hs
    dsimp only at h
    split at h
    · next hb =>
      obtain ⟨chars, hs', hstr⟩ := exists_chars_of_stringLoop h
      refine ⟨ws, chars, hws, ?_, hstr⟩
      rw [hs, hb, hs', quoted, List.cons_append, List.append_assoc]
      rfl
    · cases h

/-! ## Numbers

The loop stops at the first byte that is neither a digit nor a point it may take. What it has taken
is then given to `stod`, which throws if there is no digit in it. -/

theorem stopsNumber_of_blank {ws : Bytes} (hws : Blank ws) (h : StopsNumber s) :
    StopsNumber (ws ++ s) := by
  have hspace : ∀ b : UInt8, isSpace b = true → isDigit b = false ∧ b ≠ 46 := by decide +kernel
  cases ws with
  | nil => exact h
  | cons b ws => exact stopsNumber_cons (hspace b (hws b List.mem_cons_self)) (ws ++ s)

/-- Behind a sign there is no other one. -/
theorem head_unsigned {whole : Bytes} {frac : Option Bytes}
    (hwhole : ∀ d ∈ whole, isDigit d = true) :
    ∀ b ∈ (whole ++ frac.elim [] (46 :: ·)).head?, b ≠ 45 ∧ b ≠ 43 := by
  have hne : ∀ b : UInt8, isDigit b = true → b ≠ 45 ∧ b ≠ 43 := by decide +kernel
  intro b hb
  cases whole with
  | cons d whole =>
    rw [List.cons_append, List.head?_cons, Option.mem_some_iff] at hb
    exact hb ▸ hne d (hwhole d List.mem_cons_self)
  | nil =>
    cases frac with
    | none => cases hb
    | some digits =>
      rw [Option.elim_some, List.nil_append, List.head?_cons, Option.mem_some_iff] at hb
      exact hb ▸ by decide

private theorem strip_sign {sign unsigned : Bytes} (hsign : sign = [] ∨ sign = [43] ∨ sign = [45])
    (hhead : ∀ b ∈ unsigned.head?, b ≠ 45 ∧ b ≠ 43) :
    (if decide ((sign ++ unsigned).head? = some 45) || decide ((sign ++ unsigned).head? = some 43)
      then (sign ++ unsigned).tail else sign ++ unsigned) = unsigned := by
  have hminus : unsigned.head? ≠ some 45 := fun h ↦ (hhead 45 h).1 rfl
  have hplus : unsigned.head? ≠ some 43 := fun h ↦ (hhead 43 h).2 rfl
  obtain rfl | rfl | rfl := hsign
  · rw [List.nil_append, decide_eq_false hminus, decide_eq_false hplus]
    rfl
  · rfl
  · rfl

/-- What `stod` makes of a sign, digits and a point. -/
theorem stod_signed {sign whole : Bytes} {frac : Option Bytes}
    (hsign : sign = [] ∨ sign = [43] ∨ sign = [45]) (hwhole : ∀ d ∈ whole, isDigit d = true)
    (hfrac : ∀ digits ∈ frac, ∀ d ∈ digits, isDigit d = true) :
    stod (sign ++ (whole ++ frac.elim [] (46 :: ·))) =
      if whole ++ frac.getD [] = [] then none
      else
        let m : ℚ := digitsValue (whole ++ frac.getD []) / 10 ^ (frac.getD []).length
        toDouble (if sign = [45] then -m else m) := by
  set unsigned := whole ++ frac.elim [] (46 :: ·) with hunsigned
  have htake : unsigned.takeWhile isDigit = whole := by
    refine takeWhile_digits hwhole fun b hb ↦ ?_
    cases frac with
    | none => cases hb
    | some digits =>
      rw [Option.elim_some, List.head?_cons, Option.mem_some_iff] at hb
      exact hb ▸ rfl
  have hfraction : (unsigned.drop (whole.length + 1)).takeWhile isDigit = frac.getD [] := by
    rw [hunsigned, List.drop_append, List.drop_eq_nil_of_le (Nat.le_succ _), List.nil_append,
      Nat.add_sub_cancel_left]
    cases frac with
    | none => rfl
    | some digits =>
      have htake := @takeWhile_digits digits (hfrac digits rfl) [] fun b hb ↦ (nomatch hb)
      rw [List.append_nil] at htake
      exact htake
  have hempty :
      (whole.isEmpty && (frac.getD []).isEmpty) = decide (whole ++ frac.getD [] = []) := by
    rw [Bool.eq_iff_iff]
    simp
  have hhead : ∀ b ∈ unsigned.head?, b ≠ 45 ∧ b ≠ 43 := head_unsigned hwhole
  have hnegative : (sign ++ unsigned).head? = some 45 ↔ sign = [45] := by
    obtain rfl | rfl | rfl := hsign
    · exact iff_of_false (fun h ↦ (hhead 45 h).1 rfl) (List.cons_ne_nil _ _).symm
    · exact iff_of_false (fun h ↦ absurd (Option.some.inj h) (by decide)) (by decide)
    · exact iff_of_true rfl rfl
  rw [stod]
  simp only [strip_sign hsign hhead, htake, hfraction, hempty, decide_eq_true_eq]
  simp only [hnegative]

private theorem LooseNumber.stod_text (n : LooseNumber) : stod n.text = toDouble n.value :=
  (stod_signed n.isSign n.isWhole n.isFrac).trans (if_neg n.ne_nil)

private theorem exists_digits_of_numberLoop (s : Bytes) :
    ∃ digits, (∀ d ∈ digits, isDigit d = true) ∧ s = digits ++ numberLoop true s := by
  induction s with
  | nil => exact ⟨[], List.forall_mem_nil _, rfl⟩
  | cons ch s ih =>
    rw [numberLoop]
    split
    · next hdigit =>
      obtain ⟨digits, hdigits, hs⟩ := ih
      refine ⟨ch :: digits, List.forall_mem_cons.mpr ⟨hdigit, hdigits⟩, ?_⟩
      rw [List.cons_append, ← hs]
    · rw [Bool.not_true, Bool.and_false, if_neg Bool.false_ne_true]
      exact ⟨[], List.forall_mem_nil _, rfl⟩

/-- What the loop consumes is digits with at most one point. -/
theorem exists_unsigned_of_numberLoop (s : Bytes) :
    ∃ (whole : Bytes) (frac : Option Bytes), (∀ d ∈ whole, isDigit d = true) ∧
      (∀ digits ∈ frac, ∀ d ∈ digits, isDigit d = true) ∧
      s = whole ++ frac.elim [] (46 :: ·) ++ numberLoop false s := by
  induction s with
  | nil => exact ⟨[], none, List.forall_mem_nil _, fun _ h ↦ absurd h (Option.not_mem_none _), rfl⟩
  | cons ch s ih =>
    rw [numberLoop]
    split
    · next hdigit =>
      obtain ⟨whole, frac, hwhole, hfrac, hs⟩ := ih
      refine ⟨ch :: whole, frac, List.forall_mem_cons.mpr ⟨hdigit, hwhole⟩, hfrac, ?_⟩
      rw [List.cons_append, List.cons_append, ← hs]
    · split
      · next hpoint =>
        obtain ⟨digits, hdigits, hs⟩ := exists_digits_of_numberLoop s
        have hch : ch = 46 := of_decide_eq_true (Bool.and_elim_left hpoint)
        refine ⟨[], some digits, List.forall_mem_nil _, fun _ heq ↦ ?_, ?_⟩
        · exact Option.some.inj heq ▸ hdigits
        · rw [hch, Option.elim_some, List.nil_append, List.cons_append, ← hs]
      · exact ⟨[], none, List.forall_mem_nil _, fun _ h ↦ absurd h (Option.not_mem_none _), rfl⟩

/-- **A number is read.** -/
theorem parseNumber_text (n : LooseNumber) (htail : StopsNumber tail) :
    parseNumber (n.text ++ tail) = (toDouble n.value, tail) := by
  obtain ⟨b, s, hcons, hb⟩ := n.text_cons
  have hskip : skipWs (n.text ++ tail) = n.text ++ tail := by
    rw [hcons, List.cons_append]
    exact skipWs_cons (starts_looseNumber b hb).1 _
  have hloop : numberLoop false (n.unsignedText ++ tail) = tail := by
    rw [LooseNumber.unsignedText, List.append_assoc, numberLoop_digits false n.isWhole,
      LooseNumber.fracText]
    cases hfrac : n.frac with
    | none => exact numberLoop_of_stops false htail
    | some digits =>
      rw [Option.elim_some, List.cons_append, numberLoop, if_neg (by decide), if_pos (by decide),
        numberLoop_digits true (n.isFrac digits hfrac), numberLoop_of_stops true htail]
  have hhead : ∀ b ∈ (n.unsignedText ++ tail).head?, b ≠ 45 ∧ b ≠ 43 := by
    have hne : n.unsignedText ≠ [] := by
      intro hnil
      rw [LooseNumber.unsignedText, List.append_eq_nil_iff] at hnil
      refine n.ne_nil ?_
      rw [hnil.1]
      cases hfrac : n.frac with
      | none => rfl
      | some digits =>
        rw [LooseNumber.fracText, hfrac] at hnil
        cases hnil.2
    intro b hb
    rw [List.head?_append_of_ne_nil _ hne] at hb
    exact head_unsigned n.isWhole b hb
  have hlen : tail.length ≠ (n.text ++ tail).length := by
    rw [hcons, List.length_append, List.length_cons]
    omega
  have hstrip := strip_sign n.isSign hhead
  rw [← List.append_assoc, ← LooseNumber.text] at hstrip
  rw [parseNumber, hskip]
  simp only [hstrip, hloop]
  rw [if_neg hlen, List.length_append, Nat.add_sub_cancel, List.take_left, n.stod_text]

/-- **A number that is read** has digits. -/
theorem exists_number_of_parseNumber {num : ℚ} (h : parseNumber s = (some num, rest)) :
    ∃ ws n, Blank ws ∧ s = ws ++ (LooseNumber.text n ++ rest) ∧ toDouble n.value = some num := by
  obtain ⟨ws, hws, hs⟩ := exists_skipWs s
  rw [parseNumber] at h
  set start := skipWs s
  obtain ⟨sign, hsign, hstart⟩ : ∃ sign, (sign = [] ∨ sign = [43] ∨ sign = [45]) ∧ start = sign ++
      (if start.head? = some 45 || start.head? = some 43 then start.tail else start) := by
    cases start with
    | nil => exact ⟨[], .inl rfl, rfl⟩
    | cons b s' =>
      rw [List.head?_cons, List.tail_cons]
      by_cases hminus : b = 45
      · exact ⟨[45], .inr (.inr rfl), by rw [hminus]; rfl⟩
      by_cases hplus : b = 43
      · exact ⟨[43], .inr (.inl rfl), by rw [hplus]; rfl⟩
      · refine ⟨[], .inl rfl, ?_⟩
        simp [hminus, hplus]
  set unsigned := if start.head? = some 45 || start.head? = some 43 then start.tail else start
  obtain ⟨whole, frac, hwhole, hfrac, hunsigned⟩ := exists_unsigned_of_numberLoop unsigned
  split at h
  · cases h
  obtain ⟨hstod, hrest⟩ := Prod.mk.inj h
  have htext : start = sign ++ (whole ++ frac.elim [] (46 :: ·)) ++ rest := by
    rw [hstart, ← hrest, List.append_assoc, ← hunsigned]
  have htake : start.take (start.length - rest.length) =
      sign ++ (whole ++ frac.elim [] (46 :: ·)) := by
    rw [htext, List.length_append, Nat.add_sub_cancel, List.take_left]
  rw [hrest, htake, stod_signed hsign hwhole hfrac] at hstod
  split at hstod
  · cases hstod
  · next hne =>
    refine ⟨ws, ⟨sign, hsign, whole, hwhole, frac, hfrac, hne⟩, hws, ?_, hstod⟩
    rw [hs, htext]
    rfl

end Wasapi.Json
