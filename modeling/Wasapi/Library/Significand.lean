import Mathlib

/-!
# Significands

A positive number in a base `b`, rounded to `k + 1` digits: a significand of so many digits, and an
exponent. Rounding may carry into the next power of the base.

How a number halfway between two integers is rounded makes no difference here. A number that is
near enough to one of `k + 1` digits has the same significand and exponent.
-/

namespace Wasapi

/-- The function rounds to a nearest integer. -/
def NearestInt (round : ℚ → ℤ) : Prop := ∀ q : ℚ, |(round q : ℚ) - q| ≤ 1 / 2

/-- The significand of `k + 1` digits and the exponent. -/
def significand (round : ℚ → ℤ) (b k : ℕ) (x : ℚ) : ℕ × ℤ :=
  let e := Int.log b x
  let m := (round (x / (b : ℚ) ^ (e - k))).toNat
  if m = b ^ (k + 1) then (b ^ k, e + 1) else (m, e)

variable {round : ℚ → ℤ} {b k m : ℕ} {x u : ℚ} {e : ℤ}

/-- Rounding to a multiple of `u`. -/
theorem NearestInt.abs_mul_sub_le (hround : NearestInt round) (hu : 0 < u) (x : ℚ) :
    |(round (x / u) : ℚ) * u - x| ≤ u / 2 := by
  have hscaled : (round (x / u) : ℚ) * u - x = (round (x / u) - x / u) * u := by
    rw [sub_mul, div_mul_cancel₀ _ hu.ne']
  rw [hscaled, abs_mul, abs_of_pos hu]
  linarith [mul_le_mul_of_nonneg_right (hround (x / u)) hu.le]

theorem NearestInt.eq_of_abs_lt (hround : NearestInt round) {n : ℤ} (h : |x - n| < 1 / 2) :
    round x = n := by
  have hle := hround x
  have htriangle := abs_sub_le (round x : ℚ) x n
  have hlt : |(round x : ℚ) - n| < 1 := by linarith
  rw [← Int.cast_sub, ← Int.cast_abs, ← Int.cast_one, Int.cast_lt, Int.abs_lt_one_iff] at hlt
  omega

/-- Where the exponent is. -/
theorem log_eq_of_mem (hb : 1 < b) (hle : (b : ℚ) ^ e ≤ x) (hlt : x < (b : ℚ) ^ (e + 1)) :
    Int.log b x = e := by
  have hpos : 0 < x := (zpow_pos (by exact_mod_cast Nat.zero_lt_of_lt hb) e).trans_le hle
  have hge := (Int.zpow_le_iff_le_log hb hpos).mp hle
  have hlt' := (Int.lt_zpow_iff_log_lt hb hpos).mp hlt
  omega

section

variable (hround : NearestInt round) (hb : 1 < b)

include hb in
theorem base_pos : (0 : ℚ) < b := by exact_mod_cast Nat.zero_lt_of_lt hb

include hb in
theorem zpow_eq_pow_mul (k : ℕ) (e : ℤ) : (b : ℚ) ^ e = (b : ℚ) ^ k * (b : ℚ) ^ (e - k) := by
  rw [← zpow_natCast, ← zpow_add₀ (base_pos hb).ne', add_sub_cancel]

include hround hb in
/-- Before the carry: the digits are as many as they should be, or there is one more. -/
theorem round_spec (hx : 0 < x) : ∃ m : ℕ, round (x / (b : ℚ) ^ (Int.log b x - k)) = m ∧
    b ^ k ≤ m ∧ m ≤ b ^ (k + 1) := by
  have hu : 0 < (b : ℚ) ^ (Int.log b x - k) := zpow_pos (base_pos hb) _
  have hle : ((b ^ k : ℕ) : ℚ) ≤ x / (b : ℚ) ^ (Int.log b x - k) := by
    rw [le_div_iff₀ hu, Nat.cast_pow, ← zpow_eq_pow_mul hb]
    exact Int.zpow_log_le_self hb hx
  have hlt : x / (b : ℚ) ^ (Int.log b x - k) < ((b ^ (k + 1) : ℕ) : ℚ) := by
    have hpow := zpow_eq_pow_mul hb (k + 1) (Int.log b x + 1)
    rw [Nat.cast_add, Nat.cast_one, add_sub_add_right_eq_sub] at hpow
    rw [div_lt_iff₀ hu, Nat.cast_pow, ← hpow]
    exact Int.lt_zpow_succ_log_self hb x
  have hnear := abs_le.mp (hround (x / (b : ℚ) ^ (Int.log b x - k)))
  set r := round (x / (b : ℚ) ^ (Int.log b x - k))
  have hge : ((b ^ k : ℕ) : ℤ) ≤ r := by
    have hlt : (((b ^ k : ℕ) : ℤ) : ℚ) - 1 < r := by
      rw [Int.cast_natCast]
      linarith [hnear.1]
    rw [← Int.cast_one, ← Int.cast_sub, Int.cast_lt] at hlt
    omega
  have hle' : r ≤ ((b ^ (k + 1) : ℕ) : ℤ) := by
    have hlt : (r : ℚ) < (((b ^ (k + 1) : ℕ) : ℤ) : ℚ) + 1 := by
      rw [Int.cast_natCast]
      linarith [hnear.2]
    rw [← Int.cast_one, ← Int.cast_add, Int.cast_lt] at hlt
    omega
  obtain ⟨m, hm⟩ := Int.eq_ofNat_of_zero_le ((Int.natCast_nonneg _).trans hge)
  rw [hm] at hge hle' ⊢
  exact ⟨m, rfl, Int.ofNat_le.mp hge, Int.ofNat_le.mp hle'⟩

include hround hb in
/-- **Rounding to digits** leaves an error of half a unit of the last digit at most. -/
theorem significand_spec (hx : 0 < x) :
    b ^ k ≤ (significand round b k x).1 ∧ (significand round b k x).1 < b ^ (k + 1) ∧
      |((significand round b k x).1 : ℚ) * (b : ℚ) ^ ((significand round b k x).2 - k) - x| ≤
        (b : ℚ) ^ ((significand round b k x).2 - k) / 2 := by
  obtain ⟨m, hm, hge, hle⟩ := round_spec (k := k) hround hb hx
  have hu : 0 < (b : ℚ) ^ (Int.log b x - k) := zpow_pos (base_pos hb) _
  have herror := hround.abs_mul_sub_le hu x
  rw [hm, Int.cast_natCast] at herror
  rw [significand]
  simp only [hm, Int.toNat_natCast]
  by_cases hcarry : m = b ^ (k + 1)
  · have hpow : (b : ℚ) ^ (Int.log b x + 1 - k) = (b : ℚ) ^ (Int.log b x - k) * b := by
      rw [← zpow_add_one₀ (base_pos hb).ne', sub_add_eq_add_sub]
    have hone : (1 : ℚ) ≤ b := by exact_mod_cast hb.le
    rw [if_pos hcarry]
    refine ⟨le_rfl, Nat.pow_lt_pow_succ hb, ?_⟩
    dsimp only
    rw [hcarry, Nat.cast_pow, pow_succ, mul_assoc, mul_comm (b : ℚ), ← hpow] at herror
    rw [Nat.cast_pow]
    refine herror.trans ?_
    rw [hpow]
    nlinarith
  · rw [if_neg hcarry]
    exact ⟨hge, lt_of_le_of_ne hle hcarry, herror⟩

include hround hb in
/-- **Near enough is the same.** -/
theorem significand_eq_of_near (hm : b ^ k ≤ m) (hm' : m < b ^ (k + 1))
    (hnear : |x - m * (b : ℚ) ^ (e - k)| * (2 * b) < (b : ℚ) ^ (e - k)) :
    significand round b k x = (m, e) := by
  have hb2 : (2 : ℚ) ≤ b := by exact_mod_cast hb
  have hu : 0 < (b : ℚ) ^ (e - k) := zpow_pos (base_pos hb) _
  have hpow := zpow_eq_pow_mul hb k e
  have hpow' : (b : ℚ) ^ (e + 1) = (b : ℚ) ^ (k + 1) * (b : ℚ) ^ (e - k) := by
    rw [pow_succ, mul_right_comm, ← hpow, ← zpow_add_one₀ (base_pos hb).ne']
  have hmq : ((b : ℚ) ^ k) ≤ m := by exact_mod_cast hm
  have hmq' : (m : ℚ) + 1 ≤ (b : ℚ) ^ (k + 1) := by exact_mod_cast hm'
  set u := (b : ℚ) ^ (e - k) with hudef
  have hquarter : |x - m * u| < u / 4 := by
    have hle : |x - m * u| * 4 ≤ |x - m * u| * (2 * b) :=
      mul_le_mul_of_nonneg_left (by linarith) (abs_nonneg _)
    linarith
  obtain ⟨hlo, hhi⟩ := abs_lt.mp hquarter
  rw [significand]
  by_cases hx : (b : ℚ) ^ e ≤ x
  · have hlog : Int.log b x = e := by
      refine log_eq_of_mem hb hx ?_
      rw [hpow']
      nlinarith
    have hr : round (x / u) = m := by
      refine hround.eq_of_abs_lt ?_
      have hscaled : x / u - ((m : ℤ) : ℚ) = (x - m * u) / u := by
        rw [sub_div, mul_div_cancel_right₀ _ hu.ne', Int.cast_natCast]
      rw [hscaled, abs_div, abs_of_pos hu, div_lt_iff₀ hu]
      linarith
    simp only [hlog, ← hudef, hr, Int.toNat_natCast]
    rw [if_neg hm'.ne]
  · -- just below a power of the base: the digits are rounded up to it
    have hmk : m = b ^ k := by
      refine le_antisymm ?_ hm
      by_contra hlt
      have hsucc : ((b : ℚ) ^ k) + 1 ≤ m := by exact_mod_cast not_le.mp hlt
      rw [hpow] at hx
      nlinarith
    have hone : (1 : ℚ) ≤ (b : ℚ) ^ k := one_le_pow₀ (by linarith)
    have hprev : (b : ℚ) ^ (e - 1) * b = (b : ℚ) ^ k * u := by
      rw [← zpow_add_one₀ (base_pos hb).ne', sub_add_cancel, hpow]
    have hprevu : (b : ℚ) ^ (e - 1 - k) * b = u := by
      rw [← zpow_add_one₀ (base_pos hb).ne', hudef]
      congr 1
      ring
    have hv : 0 < (b : ℚ) ^ (e - 1 - k) := zpow_pos (base_pos hb) _
    have hmcast : (m : ℚ) = (b : ℚ) ^ k := by exact_mod_cast hmk
    have hlog : Int.log b x = e - 1 := by
      refine log_eq_of_mem hb ?_ ?_
      · rw [hmcast] at hlo
        have hpos : 0 < (b : ℚ) ^ (e - 1) := zpow_pos (base_pos hb) _
        nlinarith
      · rw [sub_add_cancel]
        exact not_le.mp hx
    have hr : round (x / (b : ℚ) ^ (e - 1 - k)) = (b ^ (k + 1) : ℕ) := by
      refine hround.eq_of_abs_lt ?_
      have hscaled : x / (b : ℚ) ^ (e - 1 - k) - (((b ^ (k + 1) : ℕ) : ℤ) : ℚ) =
          (x - m * u) / (b : ℚ) ^ (e - 1 - k) := by
        rw [sub_div, ← hprevu, hmcast, Int.cast_natCast, Nat.cast_pow, pow_succ,
          mul_div_assoc, mul_div_right_comm, div_self hv.ne', one_mul]
      rw [hscaled, abs_div, abs_of_pos hv, div_lt_iff₀ hv]
      have hlt : |x - m * u| * 2 * b < (b : ℚ) ^ (e - 1 - k) * b := by
        rw [hprevu]
        linarith
      linarith [lt_of_mul_lt_mul_right hlt (base_pos hb).le]
    simp only [hlog, hr, Int.toNat_natCast]
    rw [if_pos trivial, hmk, sub_add_cancel]

end

end Wasapi
