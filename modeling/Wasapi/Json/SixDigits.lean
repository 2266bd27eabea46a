import Wasapi.Json.IntegerText
import Wasapi.Library.Significand

/-!
# Numbers with six digits

`operator<<` rounds a number to six significant digits. If they need no exponent, the text is a
number of the grammar that means just these digits, and the `double` nearest to it has the same six
digits again.
-/

namespace Wasapi.Json

/-! ## Rounding

A `double` has 53 bits, which is more than fifteen digits. So the `double` next to a number of six
digits is far nearer to it than to any other number of six digits. -/

private theorem nearestInt_roundHalfEven : NearestInt roundHalfEven := by
  intro q
  have hlo := Int.floor_le q
  have hhi := Int.lt_floor_add_one q
  rw [roundHalfEven, abs_le]
  split
  · constructor <;> linarith
  · split
    · push_cast
      constructor <;> linarith
    · split
      · constructor <;> linarith
      · push_cast
        constructor <;> linarith

/-- The nearest `double` of a number that is neither tiny nor huge. -/
theorem exists_toDouble {q : ℚ} (hlo : 1 ≤ |q| * 2 ^ 100) (hhi : |q| ≤ 2 ^ 100) :
    ∃ d, toDouble q = some d ∧ |d - q| ≤ |q| / 2 ^ 53 := by
  have hpos : 0 < |q| := pos_of_mul_pos_left (one_pos.trans_le hlo) (by positivity)
  have hq : q ≠ 0 := abs_pos.mp hpos
  have hlog : -100 ≤ Int.log 2 |q| := by
    refine (Int.zpow_le_iff_le_log one_lt_two hpos).mp ?_
    rw [zpow_neg, Nat.cast_ofNat, inv_le_iff_one_le_mul₀ (by positivity)]
    exact hlo
  have hmax : max (Int.log 2 |q| - 52) (-1074) = Int.log 2 |q| - 52 := max_eq_left (by omega)
  have hu : (0 : ℚ) < 2 ^ (Int.log 2 |q| - 52) := zpow_pos two_pos _
  have herror := nearestInt_roundHalfEven.abs_mul_sub_le hu q
  set d := (roundHalfEven (q / 2 ^ (Int.log 2 |q| - 52)) : ℚ) * 2 ^ (Int.log 2 |q| - 52)
    with hd
  have hbound : |d - q| ≤ |q| / 2 ^ 53 := by
    have hself : (2 : ℚ) ^ Int.log 2 |q| ≤ |q| := Int.zpow_log_le_self one_lt_two hpos
    have hscale : (2 : ℚ) ^ (Int.log 2 |q| - 52) = 2 ^ Int.log 2 |q| / 2 ^ 52 := by
      rw [zpow_sub₀ two_ne_zero]
      rfl
    rw [hscale] at herror
    linarith
  refine ⟨d, ?_, hbound⟩
  obtain ⟨hbelow, habove⟩ := abs_le.mp ((abs_abs_sub_abs_le d q).trans hbound)
  have hlarge : ¬(2 : ℚ) ^ 1024 ≤ |d| := by
    have hpow : (2 : ℚ) ^ 101 < 2 ^ 1024 := pow_lt_pow_right₀ one_lt_two (by decide)
    refine not_le.mpr (lt_of_le_of_lt ?_ hpow)
    rw [pow_succ]
    linarith
  have hsmall : ¬|d| * 2 ^ 1022 < 1 := by
    have hpow : (2 : ℚ) ^ 101 ≤ 2 ^ 1022 := pow_le_pow_right₀ one_le_two (by decide)
    have hhalf : |q| / 2 ≤ |d| := by linarith
    refine not_lt.mpr (hlo.trans ?_)
    calc |q| * 2 ^ 100 = |q| / 2 * 2 ^ 101 := by ring
      _ ≤ |d| * 2 ^ 1022 := mul_le_mul hhalf hpow (by positivity) (abs_nonneg d)
  rw [toDouble, if_neg hq]
  simp only [hmax, ← hd]
  rw [if_neg hlarge, if_neg (by simp [hsmall])]

/-! ## Six digits

The text is determined by the significand and the exponent of the number in base ten. What the text
says is the number that these stand for. -/

/-- The six digits and the exponent of a number. -/
def sixDigits (x : ℚ) : ℕ × ℤ := significand roundHalfEven 10 5 |x|

/-- What six digits say about a number. -/
def rounded (x : ℚ) : ℚ :=
  if x = 0 then 0
  else
    let y : ℚ := (sixDigits x).1 * 10 ^ ((sixDigits x).2 - 5)
    if x < 0 then -y else y

/-- The number is written without an exponent. -/
def Fixed (x : ℚ) : Prop := x = 0 ∨ (-4 ≤ (sixDigits x).2 ∧ (sixDigits x).2 < 6)

instance : DecidablePred Fixed := fun x ↦ inferInstanceAs (Decidable (x = 0 ∨ _))

/-- The number that is read when this one has been written, if it needs no exponent. -/
def reread (x : ℚ) : ℚ := if Fixed x then (toDouble (rounded x)).getD 0 else x

private theorem sixDigits_spec {x : ℚ} (hx : x ≠ 0) :
    10 ^ 5 ≤ (sixDigits x).1 ∧ (sixDigits x).1 < 10 ^ 6 ∧
      |((sixDigits x).1 : ℚ) * 10 ^ ((sixDigits x).2 - 5) - (|x|)| ≤
        10 ^ ((sixDigits x).2 - 5) / 2 :=
  significand_spec nearestInt_roundHalfEven (by decide) (abs_pos.mpr hx)

/-- The digits are those of the text. -/
theorem formatNumber_eq {x : ℚ} (hx : x ≠ 0) :
    formatNumber x =
      let e := (sixDigits x).2
      let sign : Bytes := if x < 0 then [45] else []
      let digits := decimalDigits 6 (sixDigits x).1
      if 0 ≤ e && e < 6 then
        sign ++ digits.take (e.toNat + 1) ++ fractionText (digits.drop (e.toNat + 1))
      else if -4 ≤ e && e < 0 then
        sign ++ 48 :: fractionText (List.replicate (-e - 1).toNat 48 ++ digits)
      else
        sign ++ digits.take 1 ++ fractionText (digits.drop 1)
          ++ 101 :: (if e < 0 then 45 else 43) ::
            decimalDigits (if e.natAbs < 100 then 2 else 3) e.natAbs := by
  rw [formatNumber, if_neg hx, sixDigits, significand]
  simp only [Nat.cast_ofNat]
  by_cases hcarry : (roundHalfEven (|x| / 10 ^ (Int.log 10 |x| - 5))).toNat = 10 ^ 6
  · simp only [hcarry, if_true]
  · simp only [hcarry, if_false]

/-- A tie below a million is rounded up. -/
theorem roundHalfEven_toNat_eq_iff {q : ℚ} (hq : q < 10 ^ 6) :
    (roundHalfEven q).toNat = 10 ^ 6 ↔ 10 ^ 6 - 1 / 2 ≤ q := by
  constructor
  · intro h
    have hround : roundHalfEven q = 10 ^ 6 := by omega
    have hnear := (abs_le.mp (nearestInt_roundHalfEven q)).2
    rw [hround] at hnear
    push_cast at hnear
    linarith
  · intro h
    have hfloor : ⌊q⌋ = 999999 := by
      rw [Int.floor_eq_iff]
      push_cast
      constructor <;> linarith
    rw [roundHalfEven, hfloor]
    push_cast
    rw [if_neg (by linarith)]
    split
    · rfl
    · rfl

/-- Which numbers have an exponent that is not larger. -/
theorem sixDigits_snd_le_iff {x : ℚ} (hx : x ≠ 0) (j : ℤ) :
    (sixDigits x).2 ≤ j ↔ |x| < (10 ^ 6 - 1 / 2) * 10 ^ (j - 5) := by
  have hlo : (10 : ℚ) ^ Int.log 10 |x| ≤ |x| :=
    Int.zpow_log_le_self (by decide) (abs_pos.mpr hx)
  have hhi : |x| < (10 : ℚ) ^ (Int.log 10 |x| + 1) := Int.lt_zpow_succ_log_self (by decide) _
  have hu : (0 : ℚ) < 10 ^ (j - 5) := by positivity
  have hpow : (10 : ℚ) ^ j = 10 ^ 5 * 10 ^ (j - 5) := zpow_eq_pow_mul (b := 10) (by decide) 5 j
  have hpow' : (10 : ℚ) ^ (j + 1) = 10 ^ 6 * 10 ^ (j - 5) := by
    rw [zpow_add_one₀ (by norm_num), hpow]
    ring
  have hsnd : (sixDigits x).2 =
      if (roundHalfEven (|x| / 10 ^ (Int.log 10 |x| - 5))).toNat = 10 ^ 6 then
        Int.log 10 |x| + 1 else Int.log 10 |x| := by
    rw [sixDigits, significand]
    simp only [Nat.cast_ofNat]
    split <;> rfl
  rw [hsnd]
  rcases lt_trichotomy (Int.log 10 |x|) j with hlt | heq | hgt
  · refine iff_of_true (by split <;> omega) ?_
    have hle : (10 : ℚ) ^ (Int.log 10 |x| + 1) ≤ 10 ^ j :=
      zpow_le_zpow_right₀ (by norm_num) (by omega)
    nlinarith
  · rw [heq] at hhi ⊢
    have hq : |x| / 10 ^ (j - 5) < 10 ^ 6 := by
      rw [div_lt_iff₀ hu, ← hpow']
      exact hhi
    have hround := roundHalfEven_toNat_eq_iff hq
    rw [le_div_iff₀ hu] at hround
    split
    · next hcarry => exact iff_of_false (by omega) (not_lt.mpr (hround.mp hcarry))
    · next hcarry => exact iff_of_true le_rfl (not_le.mp fun h ↦ hcarry (hround.mpr h))
  · refine iff_of_false (by split <;> omega) ?_
    have hle : (10 : ℚ) ^ (j + 1) ≤ 10 ^ Int.log 10 |x| :=
      zpow_le_zpow_right₀ (by norm_num) (by omega)
    nlinarith

/-- **Which numbers need no exponent.** -/
theorem fixed_iff {x : ℚ} :
    Fixed x ↔ x = 0 ∨ (9999995 / 10 ^ 11 ≤ |x| ∧ |x| < 9999995 / 10) := by
  by_cases hx : x = 0
  · exact iff_of_true (.inl hx) (.inl hx)
  have hlo := sixDigits_snd_le_iff hx (-5)
  have hhi := sixDigits_snd_le_iff hx 5
  have hlow : (10 ^ 6 - 1 / 2) * (10 : ℚ) ^ (-5 - 5 : ℤ) = 9999995 / 10 ^ 11 := by norm_num
  have hhigh : (10 ^ 6 - 1 / 2) * (10 : ℚ) ^ (5 - 5 : ℤ) = 9999995 / 10 := by norm_num
  rw [hlow] at hlo
  rw [hhigh] at hhi
  rw [Fixed, or_iff_right hx, or_iff_right hx]
  constructor
  · rintro ⟨hge, hle⟩
    exact ⟨not_lt.mp fun h ↦ absurd (hlo.mpr h) (by omega), hhi.mp (by omega)⟩
  · rintro ⟨hge, hlt⟩
    have hnot : ¬(sixDigits x).2 ≤ -5 := fun h ↦ absurd (hlo.mp h) (not_lt.mpr hge)
    exact ⟨by omega, by have := hhi.mpr hlt; omega⟩

/-! ## The text

Where the point stands depends on the exponent: among the digits, or in front of them behind some
zeros. Zeros at the end of the fraction are left out, and a point behind the last digit too. -/

private theorem digitsValue_concat (digits : Bytes) (d : UInt8) :
    digitsValue (digits ++ [d]) = digitsValue digits * 10 + (d.toNat - 48) := by
  rw [digitsValue, List.foldl_append]
  rfl

private theorem digitsValue_append (digits digits' : Bytes) :
    digitsValue (digits ++ digits') =
      digitsValue digits * 10 ^ digits'.length + digitsValue digits' := by
  induction digits' using List.reverseRecOn with
  | nil => rw [List.append_nil, List.length_nil, pow_zero, Nat.mul_one]; rfl
  | append_singleton digits' d ih =>
    rw [← List.append_assoc, digitsValue_concat, ih, digitsValue_concat, List.length_append,
      List.length_singleton, pow_succ]
    ring

private theorem digitsValue_replicate (j : ℕ) : digitsValue (List.replicate j 48) = 0 := by
  induction j with
  | zero => rfl
  | succ j ih =>
    rw [List.replicate_succ', digitsValue_append, ih]
    rfl

/-- What is not written of the fraction are zeros. -/
theorem exists_rdropWhile_append (digits : Bytes) :
    ∃ j, digits = digits.rdropWhile (fun d ↦ d = 48) ++ List.replicate j 48 := by
  have hzeros : digits.rtakeWhile (fun d ↦ d = 48) =
      List.replicate (digits.rtakeWhile fun d ↦ d = 48).length 48 := by
    refine List.eq_replicate_of_mem fun d hd ↦ ?_
    simpa using List.mem_rtakeWhile_imp hd
  refine ⟨(digits.rtakeWhile fun d ↦ d = 48).length, ?_⟩
  rw [← hzeros]
  exact List.rdropWhile_append_rtakeWhile.symm

private theorem eq_rdropWhile_of_fractionText {digits : Bytes} {frac : Option Digits}
    (h : frac.elim [] (fun f ↦ 46 :: f.text) = fractionText digits) :
    frac.elim [] Digits.text = digits.rdropWhile fun d ↦ d = 48 := by
  rw [fractionText] at h
  cases hdrop : digits.rdropWhile fun d ↦ d = 48 with
  | nil =>
    rw [hdrop] at h
    cases frac with
    | none => rfl
    | some f => cases h
  | cons d ds =>
    rw [hdrop] at h
    cases frac with
    | none => cases h
    | some f => exact (List.cons.inj h).2

/-- Zeros that are not written do not count. -/
theorem exists_frac {digits : Bytes} (h : ∀ d ∈ digits, isDigit d = true) :
    ∃ frac : Option Digits, frac.elim [] (fun f ↦ 46 :: f.text) = fractionText digits ∧
      ∀ whole : Bytes, (digitsValue (whole ++ frac.elim [] Digits.text) : ℚ) /
          10 ^ (frac.elim [] Digits.text).length =
        digitsValue (whole ++ digits) / 10 ^ digits.length := by
  obtain ⟨frac, hfrac⟩ := exists_fractionText h
  obtain ⟨j, hj⟩ := exists_rdropWhile_append digits
  refine ⟨frac, hfrac, fun whole ↦ ?_⟩
  rw [eq_rdropWhile_of_fractionText hfrac]
  conv_rhs => rw [hj]
  rw [← List.append_assoc, digitsValue_append _ (List.replicate j 48), digitsValue_replicate,
    List.length_replicate, List.length_append, List.length_replicate, pow_add, Nat.add_zero,
    Nat.cast_mul, Nat.cast_pow, Nat.cast_ofNat, mul_div_mul_right _ _ (by positivity)]

variable {x : ℚ}

/-- A number of the grammar from its digits. -/
theorem exists_number_of_digits (minus : Bool) (int : Digits)
    (hzero : int.text.head? = some 48 → int.text = [48]) {digits : Bytes}
    (h : ∀ d ∈ digits, isDigit d = true) :
    ∃ k : JsonNumber, k.text = (if minus then [45] else []) ++ int.text ++ fractionText digits ∧
      k.exp = none ∧ k.value =
        let y : ℚ := digitsValue (int.text ++ digits) / 10 ^ digits.length
        if minus then -y else y := by
  obtain ⟨frac, hfrac, hstrip⟩ := exists_frac h
  refine ⟨⟨minus, int, hzero, frac, none⟩, ?_, rfl, ?_⟩
  · rw [JsonNumber.text, JsonNumber.mantissaText, JsonNumber.sign, JsonNumber.fracText,
      Option.elim_none, List.append_nil, hfrac, List.append_assoc]
  · rw [JsonNumber.value_of_exp_eq_none rfl, JsonNumber.mantissa, JsonNumber.fracDigits]
    simp only [hstrip]

/-- Six digits with a point behind one of them. -/
theorem exists_number_among (minus : Bool) {m i : ℕ} (hge : 10 ^ 5 ≤ m) (hlt : m < 10 ^ 6)
    (hi : i < 6) :
    ∃ k : JsonNumber,
      k.text = (if minus then [45] else []) ++ (decimalDigits 6 m).take (i + 1) ++
        fractionText ((decimalDigits 6 m).drop (i + 1)) ∧
      k.exp = none ∧ k.value =
        let y : ℚ := m * 10 ^ ((i : ℤ) - 5)
        if minus then -y else y := by
  have hdigits := isDigit_decimalDigits 6 m
  have hvalue : digitsValue (decimalDigits 6 m) = m := by
    rw [digitsValue_decimalDigits]
    exact Nat.mod_eq_of_lt hlt
  have hfirst : ((decimalDigits 6 m).take (i + 1)).head? ≠ some 48 := by
    rw [decimalDigits_succ, List.take_succ_cons, List.head?_cons, ne_eq, Option.some.injEq]
    intro h
    have hzero := digit_eq_zero _ (Nat.mod_lt _ (by decide)) h
    omega
  have hne : (decimalDigits 6 m).take (i + 1) ≠ [] := by
    rw [decimalDigits_succ, List.take_succ_cons]
    exact List.cons_ne_nil _ _
  have hbehind : ∀ d ∈ (decimalDigits 6 m).drop (i + 1), isDigit d = true :=
    fun d hd ↦ hdigits d (List.mem_of_mem_drop hd)
  obtain ⟨k, htext, hexp, hk⟩ := exists_number_of_digits minus
    ⟨(decimalDigits 6 m).take (i + 1), hne, fun d hd ↦ hdigits d (List.mem_of_mem_take hd)⟩
    (fun h ↦ absurd h hfirst) hbehind
  have hscale : (10 : ℚ) ^ ((i : ℤ) - 5) = 1 / 10 ^ (6 - (i + 1)) := by
    rw [one_div, ← zpow_natCast, ← zpow_neg]
    congr 1
    omega
  refine ⟨k, htext, hexp, ?_⟩
  rw [hk]
  simp only [List.take_append_drop, hvalue, List.length_drop, length_decimalDigits, hscale,
    mul_one_div]

/-- Six digits with a point and zeros in front of them. -/
theorem exists_number_behind (minus : Bool) {m : ℕ} (hlt : m < 10 ^ 6) (j : ℕ) :
    ∃ k : JsonNumber,
      k.text = (if minus then [45] else []) ++
        48 :: fractionText (List.replicate j 48 ++ decimalDigits 6 m) ∧
      k.exp = none ∧ k.value =
        let y : ℚ := m * 10 ^ (-(j + 1 : ℤ) - 5)
        if minus then -y else y := by
  have hvalue : digitsValue (decimalDigits 6 m) = m := by
    rw [digitsValue_decimalDigits]
    exact Nat.mod_eq_of_lt hlt
  have hbehind : ∀ d ∈ List.replicate j 48 ++ decimalDigits 6 m, isDigit d = true := by
    intro d hd
    obtain hd | hd := List.mem_append.mp hd
    · rw [List.eq_of_mem_replicate hd]
      decide
    · exact isDigit_decimalDigits 6 m d hd
  obtain ⟨k, htext, hexp, hk⟩ := exists_number_of_digits minus (oneDigit 48 (by decide))
    (fun _ ↦ rfl) hbehind
  have hscale : (10 : ℚ) ^ (-(j + 1 : ℤ) - 5) = 1 / 10 ^ (j + 6) := by
    rw [one_div, ← zpow_natCast, ← zpow_neg]
    congr 1
  have hzeros : digitsValue ((oneDigit 48 (by decide)).text ++
      (List.replicate j 48 ++ decimalDigits 6 m)) = m := by
    have hzero : digitsValue ((oneDigit 48 (by decide)).text ++ List.replicate j 48) = 0 :=
      digitsValue_replicate (j + 1)
    rw [← List.append_assoc, digitsValue_append, hvalue, hzero, Nat.zero_mul, Nat.zero_add]
  refine ⟨k, ?_, hexp, ?_⟩
  · rw [htext, List.append_assoc]
    rfl
  · rw [hk]
    simp only [hzeros, List.length_append, List.length_replicate, length_decimalDigits, hscale,
      mul_one_div]

/-- A number that needs no exponent is written with a point among its digits, or in front of them.
-/
theorem exists_number_fixed (hx : x ≠ 0) (hlo : -4 ≤ (sixDigits x).2) (hhi : (sixDigits x).2 < 6) :
    ∃ k : JsonNumber, k.text = formatNumber x ∧ k.exp = none ∧ k.value = rounded x := by
  obtain ⟨hge, hlt, -⟩ := sixDigits_spec hx
  rw [formatNumber_eq hx, rounded, if_neg hx]
  generalize (sixDigits x).1 = m at hge hlt ⊢
  generalize (sixDigits x).2 = e at hlo hhi ⊢
  dsimp only
  by_cases hnonneg : 0 ≤ e
  · obtain ⟨i, rfl⟩ := Int.eq_ofNat_of_zero_le hnonneg
    have hi : i < 6 := by omega
    have hbranch : (decide (0 ≤ (i : ℤ)) && decide ((i : ℤ) < 6)) = true := by simp [hi]
    obtain ⟨k, htext, hexp, hk⟩ := exists_number_among (decide (x < 0)) hge hlt hi
    refine ⟨k, ?_, hexp, ?_⟩
    · simp only [htext, hbranch, if_true, decide_eq_true_eq, Int.toNat_natCast]
    · simp only [hk, decide_eq_true_eq]
  · obtain ⟨j, rfl⟩ : ∃ j : ℕ, e = -(j + 1 : ℤ) := ⟨(-e - 1).toNat, by omega⟩
    have hfixed : (decide (0 ≤ -(j + 1 : ℤ)) && decide (-(j + 1 : ℤ) < 6)) = false := by
      rw [decide_eq_false (by omega), Bool.false_and]
    have hbranch : (decide (-4 ≤ -(j + 1 : ℤ)) && decide (-(j + 1 : ℤ) < 0)) = true := by
      rw [decide_eq_true (by omega), decide_eq_true (by omega), Bool.and_self]
    have hj : (-(-(j + 1 : ℤ)) - 1).toNat = j := by omega
    obtain ⟨k, htext, hexp, hk⟩ := exists_number_behind (decide (x < 0)) hlt j
    refine ⟨k, ?_, hexp, ?_⟩
    · simp only [htext, hfixed, hbranch, hj, Bool.false_eq_true, if_false, if_true,
        decide_eq_true_eq]
    · simp only [hk, decide_eq_true_eq]

/-- Any other number is written with an exponent. -/
theorem exists_number_exponent (hx : ¬Fixed x) :
    ∃ k : JsonNumber, k.text = formatNumber x ∧ k.exp ≠ none := by
  rw [Fixed, not_or] at hx
  obtain ⟨hne, he⟩ := hx
  rw [formatNumber_eq hne]
  generalize (sixDigits x).1 = m
  generalize (sixDigits x).2 = e at he ⊢
  dsimp only
  have hfixed : (decide (0 ≤ e) && decide (e < 6)) = false := by
    rw [Bool.and_eq_false_iff, decide_eq_false_iff_not, decide_eq_false_iff_not]
    omega
  have hsmall : (decide (-4 ≤ e) && decide (e < 0)) = false := by
    rw [Bool.and_eq_false_iff, decide_eq_false_iff_not, decide_eq_false_iff_not]
    omega
  have hfirst := isDigit_ofNat (m / 10 ^ 5 % 10) (Nat.mod_lt _ (by decide))
  obtain ⟨k, htext, hexp, -⟩ := exists_number_of_digits (decide (x < 0)) (oneDigit _ hfirst)
    (fun hd ↦ congrArg (fun b ↦ [b]) (Option.some.inj hd)) (isDigit_decimalDigits 5 m)
  obtain ⟨width, hwidth, hpos⟩ :
      ∃ width, (if e.natAbs < 100 then 2 else 3) = width ∧ 0 < width := by
    refine ⟨_, rfl, ?_⟩
    split <;> decide
  have hdigits : decimalDigits width e.natAbs ≠ [] :=
    List.ne_nil_of_length_pos (by rw [length_decimalDigits]; exact hpos)
  refine ⟨{ k with exp := some ⟨101, Exponent.isE_small, [if e < 0 then 45 else 43], ?_,
    decimalDigits width e.natAbs, hdigits, isDigit_decimalDigits _ _⟩ }, ?_, ?_⟩
  · split
    · exact .inr (.inr rfl)
    · exact .inr (.inl rfl)
  · rw [JsonNumber.text, hexp, Option.elim_none, List.append_nil] at htext
    change k.mantissaText ++ Exponent.text _ = _
    rw [htext, decimalDigits_succ 5 m, hfixed, hsmall, hwidth]
    simp only [Exponent.text, oneDigit, decide_eq_true_eq, Bool.false_eq_true, if_false,
      List.take_succ_cons, List.take_zero, List.drop_succ_cons, List.drop_zero,
      List.singleton_append]
  · exact Option.some_ne_none _

/-! ## Reading the text

The number that is read differs from the one that was written by the rounding to six digits, and
from the number in the text by the rounding to a `double`. The second error is too small to change a
digit. -/

private theorem abs_rounded (hx : x ≠ 0) :
    |rounded x| = (sixDigits x).1 * 10 ^ ((sixDigits x).2 - 5) := by
  have hnonneg : (0 : ℚ) ≤ (sixDigits x).1 * 10 ^ ((sixDigits x).2 - 5) := by positivity
  rw [rounded, if_neg hx]
  dsimp only
  split
  · rw [abs_neg, abs_of_nonneg hnonneg]
  · exact abs_of_nonneg hnonneg

private theorem rounded_neg_iff (hx : x ≠ 0) : rounded x < 0 ↔ x < 0 := by
  have hpos : (0 : ℚ) < (sixDigits x).1 * 10 ^ ((sixDigits x).2 - 5) := by
    have hm : 0 < (sixDigits x).1 := lt_of_lt_of_le (by decide) (sixDigits_spec hx).1
    positivity
  rw [rounded, if_neg hx]
  dsimp only
  split
  · next hneg => exact iff_of_true (neg_lt_zero.mpr hpos) hneg
  · next hneg => exact iff_of_false hpos.not_gt hneg

/-- So small an error leaves the sign. -/
theorem ne_zero_and_neg_iff_of_near {d y : ℚ} (hy : y ≠ 0) (h : |d - y| ≤ |y| / 2 ^ 53) :
    d ≠ 0 ∧ (d < 0 ↔ y < 0) := by
  have hpos := abs_pos.mpr hy
  obtain ⟨hbelow, habove⟩ := abs_le.mp h
  obtain hneg | hneg := lt_or_ge y 0
  · rw [abs_of_neg hneg] at habove hpos
    have hd : d < 0 := by linarith
    exact ⟨hd.ne, iff_of_true hd hneg⟩
  · rw [abs_of_nonneg hneg] at hbelow hpos
    have hd : 0 < d := by linarith
    exact ⟨hd.ne', iff_of_false hd.not_gt hneg.not_gt⟩

/-- **The `double` that is read** has the same sign and the same six digits. -/
theorem reread_spec (hx : x ≠ 0) (h : Fixed x) :
    toDouble (rounded x) = some (reread x) ∧ reread x ≠ 0 ∧ (reread x < 0 ↔ x < 0) ∧
      sixDigits (reread x) = sixDigits x ∧ |reread x - rounded x| ≤ |rounded x| / 2 ^ 53 := by
  obtain ⟨hlo, hhi⟩ := h.resolve_left hx
  obtain ⟨hge, hlt, -⟩ := sixDigits_spec hx
  have habs := abs_rounded hx
  have hgeq : (10 : ℚ) ^ 5 ≤ (sixDigits x).1 := by exact_mod_cast hge
  have hltq : ((sixDigits x).1 : ℚ) < 10 ^ 6 := by exact_mod_cast hlt
  have hscale : (10 : ℚ) ^ (-9 : ℤ) ≤ 10 ^ ((sixDigits x).2 - 5) :=
    zpow_le_zpow_right₀ (by norm_num) (by omega)
  have hscale' : (10 : ℚ) ^ ((sixDigits x).2 - 5) ≤ 10 ^ (0 : ℤ) :=
    zpow_le_zpow_right₀ (by norm_num) (by omega)
  rw [zpow_zero] at hscale'
  have hu : (0 : ℚ) < 10 ^ ((sixDigits x).2 - 5) := by positivity
  set m : ℚ := ((sixDigits x).1 : ℚ) with hmdef
  set u : ℚ := (10 : ℚ) ^ ((sixDigits x).2 - 5) with hudef
  have hmlo : 10 ^ 5 * 10 ^ (-9 : ℤ) ≤ m * u :=
    mul_le_mul hgeq hscale (by positivity) (by linarith)
  have hmhi : m * u ≤ 10 ^ 6 * 1 := mul_le_mul hltq.le hscale' hu.le (by positivity)
  obtain ⟨d, hd, herror⟩ : ∃ d, toDouble (rounded x) = some d ∧
      |d - rounded x| ≤ |rounded x| / 2 ^ 53 := by
    refine exists_toDouble ?_ ?_
    · rw [habs]
      calc (1 : ℚ) ≤ 10 ^ 5 * 10 ^ (-9 : ℤ) * 2 ^ 100 := by norm_num
        _ ≤ m * u * 2 ^ 100 := mul_le_mul_of_nonneg_right hmlo (by positivity)
    · rw [habs]
      exact hmhi.trans (by norm_num)
  have hne : rounded x ≠ 0 := by
    rw [← abs_pos, habs]
    exact mul_pos (by linarith) hu
  obtain ⟨hd0, hsign⟩ := ne_zero_and_neg_iff_of_near hne herror
  have hreread : reread x = d := by rw [reread, if_pos h, hd, Option.getD_some]
  have hdigits : sixDigits d = sixDigits x := by
    have hnear : |(|d|) - m * u| * 20 < u := by
      have hle := (abs_abs_sub_abs_le d (rounded x)).trans herror
      rw [habs] at hle
      have hmu : m * u * 20 < u * 2 ^ 53 := by nlinarith
      linarith
    refine significand_eq_of_near (m := (sixDigits x).1) (e := (sixDigits x).2)
      nearestInt_roundHalfEven (by decide) hge hlt ?_
    simp only [Nat.cast_ofNat, ← hudef, ← hmdef]
    linarith
  rw [hreread]
  exact ⟨hd, hd0, hsign.trans (rounded_neg_iff hx), hdigits, herror⟩

private theorem reread_zero : reread 0 = 0 := by
  rw [reread, if_pos (.inl rfl), rounded, if_pos rfl, toDouble, if_pos rfl, Option.getD_some]

private theorem reread_of_not_fixed (h : ¬Fixed x) : reread x = x := if_neg h

private theorem rounded_reread (h : Fixed x) : rounded (reread x) = rounded x := by
  by_cases hx : x = 0
  · rw [hx, reread_zero]
  · obtain ⟨-, hne, hsign, hdigits, -⟩ := reread_spec hx h
    rw [rounded, rounded, if_neg hne, if_neg hx, hdigits]
    simp only [hsign]

theorem fixed_reread (x : ℚ) : Fixed (reread x) ↔ Fixed x := by
  by_cases h : Fixed x
  · refine iff_of_true ?_ h
    by_cases hx : x = 0
    · rw [hx, reread_zero]
      exact .inl rfl
    · obtain ⟨-, -, -, hdigits, -⟩ := reread_spec hx h
      refine .inr ?_
      rw [hdigits]
      exact h.resolve_left hx
  · rw [reread_of_not_fixed h]

/-- **A number that has been read is read again as it is.** -/
theorem reread_reread (x : ℚ) : reread (reread x) = reread x := by
  by_cases h : Fixed x
  · rw [reread, if_pos ((fixed_reread x).mpr h), rounded_reread h]
    exact (if_pos h).symm
  · rw [reread_of_not_fixed h, reread_of_not_fixed h]

/-- Its text is the same. -/
theorem formatNumber_reread (x : ℚ) : formatNumber (reread x) = formatNumber x := by
  by_cases h : Fixed x
  · by_cases hx : x = 0
    · rw [hx, reread_zero]
    · obtain ⟨-, hne, hsign, hdigits, -⟩ := reread_spec hx h
      rw [formatNumber_eq hne, formatNumber_eq hx, hdigits]
      simp only [hsign]
  · rw [reread_of_not_fixed h]

/-- The number may be off in the sixth digit. -/
theorem abs_reread_sub_le (x : ℚ) : |reread x - x| ≤ |x| / 10 ^ 5 := by
  by_cases h : Fixed x
  · by_cases hx : x = 0
    · rw [hx, reread_zero]
      simp
    · obtain ⟨-, -, -, -, herror⟩ := reread_spec hx h
      obtain ⟨hge, -, hdigits⟩ := sixDigits_spec hx
      have hrounded : |rounded x - x| =
          |((sixDigits x).1 : ℚ) * 10 ^ ((sixDigits x).2 - 5) - (|x|)| := by
        rw [rounded, if_neg hx]
        dsimp only
        split
        · next hneg => rw [abs_of_neg hneg, ← abs_neg, neg_sub, sub_neg_eq_add, sub_neg_eq_add,
            add_comm]
        · next hneg => rw [abs_of_nonneg (not_lt.mp hneg)]
      rw [abs_rounded hx] at herror
      have hu : (0 : ℚ) < 10 ^ ((sixDigits x).2 - 5) := by positivity
      have hgeq : (10 : ℚ) ^ 5 ≤ (sixDigits x).1 := by exact_mod_cast hge
      have hmu := mul_le_mul_of_nonneg_right hgeq hu.le
      have htriangle := abs_sub_le (reread x) (rounded x) x
      rw [hrounded] at htriangle
      have hlow := (abs_le.mp hdigits).2
      linarith
  · rw [reread_of_not_fixed h, sub_self, abs_zero]
    positivity

end Wasapi.Json
