import Wasapi.Json.Completeness

/-!
# Integers as text

`operator<<` writes six significant digits. An integer of at most six digits is written with these
digits and read back exactly; a larger one is written with an exponent. Both texts are numbers of
the JSON grammar.
-/

namespace Wasapi.Json

/-! ## Decimal digits

Digits are computed from both ends: the printer needs the most significant ones, and the value is
computed from the least significant one on. -/

theorem isDigit_ofNat : ∀ d < 10, isDigit (UInt8.ofNat (48 + d)) = true := by decide

private theorem toNat_ofNat_digit : ∀ d < 10, (UInt8.ofNat (48 + d)).toNat - 48 = d := by decide

theorem length_decimalDigits (k n : ℕ) : (decimalDigits k n).length = k := by
  rw [decimalDigits, List.length_map, List.length_reverse, List.length_range]

theorem isDigit_decimalDigits (k n : ℕ) : ∀ d ∈ decimalDigits k n, isDigit d = true := by
  intro d hd
  obtain ⟨i, -, rfl⟩ := List.mem_map.mp hd
  exact isDigit_ofNat _ (Nat.mod_lt _ (by decide))

/-- The first digit is the most significant one. -/
theorem decimalDigits_succ (k n : ℕ) :
    decimalDigits (k + 1) n = UInt8.ofNat (48 + n / 10 ^ k % 10) :: decimalDigits k n := by
  rw [decimalDigits, decimalDigits, List.range_succ, List.reverse_append, List.reverse_singleton,
    List.singleton_append, List.map_cons]

/-- The last digit is the least significant one. -/
theorem decimalDigits_concat (k n : ℕ) :
    decimalDigits (k + 1) n = decimalDigits k (n / 10) ++ [UInt8.ofNat (48 + n % 10)] := by
  induction k with
  | zero => rw [decimalDigits_succ, pow_zero, Nat.div_one]; rfl
  | succ k ih =>
    rw [decimalDigits_succ, ih, decimalDigits_succ k (n / 10), Nat.div_div_eq_div_mul,
      ← pow_succ', List.cons_append]

theorem digitsValue_decimalDigits (k n : ℕ) : digitsValue (decimalDigits k n) = n % 10 ^ k := by
  induction k generalizing n with
  | zero => rw [pow_zero, Nat.mod_one]; rfl
  | succ k ih =>
    rw [decimalDigits_concat, digitsValue, List.foldl_append, ← digitsValue, ih, List.foldl_cons,
      List.foldl_nil, toNat_ofNat_digit _ (Nat.mod_lt _ (by decide)), pow_succ', Nat.mod_mul,
      Nat.mul_comm, Nat.add_comm]

private theorem decimalDigits_mul_pow (k n j : ℕ) :
    decimalDigits (k + j) (n * 10 ^ j) = decimalDigits k n ++ List.replicate j 48 := by
  induction j with
  | zero => rw [pow_zero, Nat.mul_one, List.replicate_zero, List.append_nil, Nat.add_zero]
  | succ j ih =>
    rw [← Nat.add_assoc, decimalDigits_concat, pow_succ, ← Nat.mul_assoc,
      Nat.mul_div_cancel _ (by decide), Nat.mul_mod_left, ih, List.append_assoc,
      List.replicate_succ']
    rfl

/-- Zeros at the end of a fraction are not written. -/
theorem fractionText_replicate (j : ℕ) : fractionText (List.replicate j 48) = [] := by
  have hdrop : (List.replicate j (48 : UInt8)).rdropWhile (fun d ↦ d = 48) = [] := by
    rw [List.rdropWhile_eq_nil_iff]
    intro d hd
    rw [List.eq_of_mem_replicate hd]
    exact decide_eq_true rfl
  rw [fractionText]
  simp only [hdrop, List.isEmpty_nil, if_true]

/-- The fraction of a number, when there is one. -/
theorem exists_fractionText {digits : Bytes} (h : ∀ d ∈ digits, isDigit d = true) :
    ∃ frac : Option Digits, frac.elim [] (fun f ↦ 46 :: f.text) = fractionText digits := by
  rw [fractionText]
  cases hdrop : digits.rdropWhile fun d ↦ d = 48 with
  | nil => exact ⟨none, rfl⟩
  | cons d ds =>
    refine ⟨some ⟨d :: ds, List.cons_ne_nil d ds, fun d' hd' ↦ h d' ?_⟩, rfl⟩
    exact (List.rdropWhile_prefix _ digits).subset (hdrop ▸ hd')

/-! ## Rounding

An integer with at most 53 bits is a `double`, so nothing is rounded when it is read. -/

private theorem roundHalfEven_intCast (z : ℤ) : roundHalfEven z = z := by
  rw [roundHalfEven]
  simp only [Int.floor_intCast, sub_self]
  rw [if_pos (by norm_num)]

theorem abs_intCast (n : ℤ) : |(n : ℚ)| = (n.natAbs : ℚ) := by
  rw [← Int.cast_abs, Int.abs_eq_natAbs, Int.cast_natCast]

private theorem log_abs_intCast (b : ℕ) (n : ℤ) : Int.log b |(n : ℚ)| = Nat.log b n.natAbs := by
  rw [abs_intCast, Int.log_natCast]

/-- **A `double` holds every integer of up to 53 bits.** -/
theorem toDouble_intCast {n : ℤ} (h : n.natAbs < 2 ^ 53) : toDouble n = some (n : ℚ) := by
  rw [toDouble]
  by_cases hn : n = 0
  · rw [hn, Int.cast_zero, if_pos rfl]
  have hq : (n : ℚ) ≠ 0 := Int.cast_ne_zero.mpr hn
  have hpos : 0 < n.natAbs := Int.natAbs_pos.mpr hn
  have hone : (1 : ℚ) ≤ |(n : ℚ)| := by
    rw [abs_intCast]
    exact_mod_cast hpos
  have hlog : Nat.log 2 n.natAbs < 53 := Nat.log_lt_of_lt_pow hpos.ne' h
  obtain ⟨k, hk⟩ : ∃ k : ℕ, Nat.log 2 n.natAbs + k = 52 := ⟨_, Nat.add_sub_of_le (by omega)⟩
  have he : max (Int.log 2 |(n : ℚ)| - 52) (-1074) = -(k : ℤ) := by
    rw [log_abs_intCast]
    omega
  have hround : (roundHalfEven ((n : ℚ) / 2 ^ (-(k : ℤ))) : ℚ) * 2 ^ (-(k : ℤ)) = n := by
    have hscaled : (n : ℚ) / 2 ^ (-(k : ℤ)) = ((n * 2 ^ k : ℤ) : ℚ) := by
      rw [zpow_neg, div_inv_eq_mul, zpow_natCast]
      push_cast
      rfl
    rw [hscaled, roundHalfEven_intCast, ← hscaled, div_mul_cancel₀ _ (zpow_ne_zero _ two_ne_zero)]
  have hlarge : ¬(2 : ℚ) ^ 1024 ≤ |(n : ℚ)| := by
    have hpow : ((2 ^ 53 : ℕ) : ℚ) < 2 ^ 1024 := by
      rw [Nat.cast_pow, Nat.cast_ofNat]
      exact pow_lt_pow_right₀ one_lt_two (by decide)
    rw [not_le, abs_intCast]
    exact (Nat.cast_lt.mpr h).trans hpow
  have hsmall : ¬|(n : ℚ)| * 2 ^ 1022 < 1 := by
    rw [not_lt]
    exact one_le_mul_of_one_le_of_one_le hone (one_le_pow₀ one_le_two)
  rw [if_neg hq]
  simp only [he, hround]
  rw [if_neg hlarge, if_neg (by simp [hsmall])]

/-! ## Integers

Six digits of an integer below a million are all of its digits. From a million on the exponent is
six or more, and `%g` changes to scientific notation. -/

/-- The digits `operator<<` writes for an integer that has at most six. -/
def integerDigits (n : ℤ) : Bytes := decimalDigits (Nat.log 10 n.natAbs + 1) n.natAbs

/-- The sign and the branch of `%g` are those of the integer. -/
theorem formatNumber_of_lt {n : ℤ} (h : n.natAbs < 10 ^ 6) :
    formatNumber n = (if n < 0 then [45] else []) ++ integerDigits n := by
  rw [formatNumber]
  by_cases hn : n = 0
  · rw [hn, Int.cast_zero, if_pos rfl]
    rfl
  have hpos : 0 < n.natAbs := Int.natAbs_pos.mpr hn
  have hlog : Nat.log 10 n.natAbs < 6 := Nat.log_lt_of_lt_pow hpos.ne' h
  obtain ⟨j, hj⟩ : ∃ j : ℕ, Nat.log 10 n.natAbs + j = 5 := ⟨_, Nat.add_sub_of_le (by omega)⟩
  have hexp : (Nat.log 10 n.natAbs : ℤ) - 5 = -(j : ℤ) := by omega
  have hround : (roundHalfEven (|(n : ℚ)| / 10 ^ ((Nat.log 10 n.natAbs : ℤ) - 5))).toNat
      = n.natAbs * 10 ^ j := by
    have hscaled : |(n : ℚ)| / 10 ^ (-(j : ℤ)) = ((n.natAbs * 10 ^ j : ℕ) : ℤ) := by
      rw [abs_intCast, zpow_neg, div_inv_eq_mul, zpow_natCast, Int.cast_natCast, Nat.cast_mul,
        Nat.cast_pow, Nat.cast_ofNat]
    rw [hexp, hscaled, roundHalfEven_intCast, Int.toNat_natCast]
  have hne : n.natAbs * 10 ^ j ≠ 10 ^ 6 := by
    have hlt : n.natAbs < 10 ^ (Nat.log 10 n.natAbs + 1) := Nat.lt_pow_succ_log_self (by decide) _
    have hmul := Nat.mul_lt_mul_of_pos_right hlt (Nat.pow_pos (n := j) (by decide : 0 < 10))
    rw [← pow_add, show Nat.log 10 n.natAbs + 1 + j = 6 by omega] at hmul
    exact hmul.ne
  have hdigits : decimalDigits 6 (n.natAbs * 10 ^ j) = integerDigits n ++ List.replicate j 48 := by
    rw [integerDigits, ← decimalDigits_mul_pow]
    congr 1
    omega
  have hlen : Nat.log 10 n.natAbs + 1 = (integerDigits n).length := (length_decimalDigits _ _).symm
  have hfixed :
      (0 ≤ (Nat.log 10 n.natAbs : ℤ) && decide ((Nat.log 10 n.natAbs : ℤ) < 6)) = true := by
    simp only [Bool.and_eq_true, decide_eq_true_eq]
    omega
  rw [if_neg (Int.cast_ne_zero.mpr hn), log_abs_intCast]
  simp only [hround, if_neg hne, hfixed, if_true, Int.toNat_natCast, Int.cast_lt_zero]
  rw [hdigits, hlen, List.take_left, List.drop_left, fractionText_replicate, List.append_nil]

/-- A larger integer is written with an exponent. -/
theorem formatNumber_of_le {n : ℤ} (h : 10 ^ 6 ≤ n.natAbs) :
    ∃ m k e, formatNumber n = (if n < 0 then [45] else []) ++ (decimalDigits 6 m).take 1
      ++ fractionText ((decimalDigits 6 m).drop 1) ++ 101 :: 43 :: decimalDigits (k + 1) e := by
  have hpos : n ≠ 0 := by
    rintro rfl
    exact absurd h (by decide)
  have hlog : (6 : ℤ) ≤ Int.log 10 |(n : ℚ)| := by
    rw [log_abs_intCast]
    exact_mod_cast Nat.le_log_of_pow_le (by decide) h
  rw [formatNumber, if_neg (Int.cast_ne_zero.mpr hpos)]
  simp only [Int.cast_lt_zero]
  generalize (roundHalfEven (|(n : ℚ)| / 10 ^ (Int.log 10 |(n : ℚ)| - 5))).toNat = m₀
  generalize Int.log 10 |(n : ℚ)| = e₀ at hlog
  -- rounding may take the number to the next power of ten
  generalize he : (if m₀ = 10 ^ 6 then e₀ + 1 else e₀) = e
  have hge : 6 ≤ e := by
    rw [← he]
    split <;> omega
  have hfixed : (0 ≤ e && decide (e < 6)) = false := by simp [hge]
  have hsmall : (-4 ≤ e && decide (e < 0)) = false := by
    rw [decide_eq_false (by omega : ¬e < 0), Bool.and_false]
  simp only [hfixed, hsmall, Bool.false_eq_true, if_false, if_neg (by omega : ¬e < 0)]
  by_cases hwidth : e.natAbs < 100
  · rw [if_pos hwidth]
    exact ⟨_, 1, _, rfl⟩
  · rw [if_neg hwidth]
    exact ⟨_, 2, _, rfl⟩

theorem digit_eq_zero : ∀ d < 10, UInt8.ofNat (48 + d) = 48 → d = 0 := by decide

private theorem digitsValue_integerDigits (n : ℤ) : digitsValue (integerDigits n) = n.natAbs := by
  rw [integerDigits, digitsValue_decimalDigits]
  exact Nat.mod_eq_of_lt (Nat.lt_pow_succ_log_self (by decide) _)

private theorem integerDigits_noLeadingZero {n : ℤ} (h : (integerDigits n).head? = some 48) :
    integerDigits n = [48] := by
  by_cases hn : n = 0
  · rw [hn]
    rfl
  have hpos : 0 < n.natAbs := Int.natAbs_pos.mpr hn
  rw [integerDigits, decimalDigits_succ, List.head?_cons, Option.some.injEq] at h
  have hzero := digit_eq_zero _ (Nat.mod_lt _ (by decide)) h
  have hlt : n.natAbs / 10 ^ Nat.log 10 n.natAbs < 10 := by
    refine Nat.div_lt_of_lt_mul ?_
    rw [← pow_succ]
    exact Nat.lt_pow_succ_log_self (by decide) _
  have hge : 0 < n.natAbs / 10 ^ Nat.log 10 n.natAbs :=
    Nat.div_pos (Nat.pow_log_le_self 10 hpos.ne') (Nat.pow_pos (by decide))
  rw [Nat.mod_eq_of_lt hlt] at hzero
  exact absurd hzero hge.ne'

/-- The syntax tree of an integer. -/
def integerNumber (n : ℤ) : JsonNumber where
  minus := decide (n < 0)
  int := ⟨integerDigits n, List.ne_nil_of_length_eq_add_one (length_decimalDigits _ _),
    isDigit_decimalDigits _ _⟩
  noLeadingZero := integerDigits_noLeadingZero
  frac := none
  exp := none

private theorem text_integerNumber (n : ℤ) :
    (integerNumber n).text = (if n < 0 then [45] else []) ++ integerDigits n := by
  simp [JsonNumber.text, JsonNumber.mantissaText, JsonNumber.sign, JsonNumber.fracText,
    integerNumber]

private theorem value_integerNumber (n : ℤ) : (integerNumber n).value = n := by
  have hdigits : (integerNumber n).mantissa = if n < 0 then -(n.natAbs : ℚ) else n.natAbs := by
    simp [JsonNumber.mantissa, JsonNumber.fracDigits, integerNumber, digitsValue_integerDigits]
  rw [JsonNumber.value_of_exp_eq_none rfl, hdigits, ← abs_intCast]
  by_cases hn : n < 0
  · rw [if_pos hn, abs_of_neg (Int.cast_lt_zero.mpr hn), neg_neg]
  · rw [if_neg hn, abs_of_nonneg (Int.cast_nonneg (not_lt.mp hn))]

/-- The syntax tree of a number in scientific notation. -/
def scientificNumber (minus : Bool) (d : UInt8) (h : isDigit d = true) (frac : Option Digits)
    (digits : Digits) : JsonNumber where
  minus := minus
  int := oneDigit d h
  noLeadingZero := fun hd ↦ congrArg (fun b ↦ [b]) (Option.some.inj hd)
  frac := frac
  exp := some ⟨101, Exponent.isE_small, [43], Or.inr (Or.inl rfl), digits⟩

/-- **What is written for an integer is a number.** It is readable if the integer has at most six
digits, and has an exponent otherwise. -/
theorem exists_number_formatNumber (n : ℤ) :
    ∃ k : JsonNumber, k.text = formatNumber n ∧ (k.Readable ↔ n.natAbs < 10 ^ 6)
      ∧ (n.natAbs < 10 ^ 6 → toDouble k.value = some (n : ℚ)) := by
  by_cases h : n.natAbs < 10 ^ 6
  · have hdouble : toDouble (integerNumber n).value = some (n : ℚ) := by
      rw [value_integerNumber, toDouble_intCast (h.trans (by decide))]
    refine ⟨integerNumber n, ?_, iff_of_true ⟨rfl, ?_⟩ h, fun _ ↦ hdouble⟩
    · rw [text_integerNumber, formatNumber_of_lt h]
    · rw [hdouble, Option.isSome_some]
  · obtain ⟨m, k, e, htext⟩ := formatNumber_of_le (not_lt.mp h)
    have hfirst := isDigit_ofNat (m / 10 ^ 5 % 10) (Nat.mod_lt _ (by decide))
    obtain ⟨frac, hfrac⟩ := exists_fractionText (isDigit_decimalDigits 5 m)
    have hne : decimalDigits (k + 1) e ≠ [] :=
      List.ne_nil_of_length_eq_add_one (length_decimalDigits _ _)
    refine ⟨scientificNumber (decide (n < 0)) _ hfirst frac
      ⟨decimalDigits (k + 1) e, hne, isDigit_decimalDigits _ _⟩, ?_, ?_, fun hlt ↦ absurd hlt h⟩
    · rw [htext, decimalDigits_succ 5 m, List.take_succ_cons, List.take_zero, List.drop_succ_cons,
        List.drop_zero, ← hfrac]
      simp [JsonNumber.text, JsonNumber.mantissaText, JsonNumber.sign, JsonNumber.fracText,
        Exponent.text, scientificNumber, oneDigit]
    · exact iff_of_false (fun hread ↦ Option.some_ne_none _ hread.1) h

end Wasapi.Json
