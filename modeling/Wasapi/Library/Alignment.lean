import Mathlib

/-!
# Rounding up to an alignment

Rounding up in the natural numbers, and the mask expression for it on 64-bit words, which computes
the same number modulo `2 ^ 64` when the alignment is a power of two.
-/

namespace Wasapi

/-- The least multiple of `a` that is not less than `n`. -/
def roundUp (n a : ℕ) : ℕ := a * (n ⌈/⌉ a)

variable {n m a k : ℕ}

theorem dvd_roundUp (n a : ℕ) : a ∣ roundUp n a := Nat.dvd_mul_right _ _

theorem le_roundUp (ha : 0 < a) (n : ℕ) : n ≤ roundUp n a := (ceilDiv_le_iff_le_mul ha).mp le_rfl

theorem roundUp_le (ha : 0 < a) (hm : a ∣ m) (h : n ≤ m) : roundUp n a ≤ m := by
  obtain ⟨q, rfl⟩ := hm
  exact Nat.mul_le_mul_left a ((ceilDiv_le_iff_le_mul ha).mpr h)

theorem roundUp_lt (ha : 0 < a) (n : ℕ) : roundUp n a < n + a := by
  rw [roundUp, Nat.ceilDiv_eq_add_pred_div]
  have hle := Nat.mul_div_le (n + a - 1) a
  omega

/-- The low bits of a word are cleared. -/
theorem toNat_and_complement (x : UInt64) {mask : UInt64} (hmask : mask.toNat = 2 ^ k - 1) :
    (x &&& ~~~mask).toNat = x.toNat / 2 ^ k * 2 ^ k := by
  have hlt : 2 ^ k - 1 < 2 ^ 64 := hmask ▸ mask.toNat_lt
  have hnot : (~~~mask).toNat = 2 ^ 64 - ((2 ^ k - 1) + 1) := by
    rw [UInt64.toNat_not, hmask]
    change 2 ^ 64 - 1 - (2 ^ k - 1) = _
    omega
  refine Nat.eq_of_testBit_eq fun i ↦ ?_
  rw [UInt64.toNat_and, Nat.testBit_and, Nat.testBit_mul_two_pow, Nat.testBit_div_two_pow, hnot,
    Nat.testBit_two_pow_sub_succ hlt, Nat.testBit_two_pow_sub_one]
  by_cases hi : k ≤ i
  · rw [Nat.sub_add_cancel hi]
    by_cases hi64 : i < 64
    · simp [hi, hi64]
    · have hhigh : x.toNat.testBit i = false :=
        Nat.testBit_lt_two_pow (x.toNat_lt.trans_le (Nat.pow_le_pow_right (by omega) (by omega)))
      simp [hhigh]
  · simp [hi, Nat.not_le.mp hi]

/-- The mask expression rounds up, modulo the word size. -/
theorem toNat_add_sub_one_and_complement {x align : UInt64} (hx : x.toNat = n % 2 ^ 64)
    (halign : align.toNat = 2 ^ k) :
    ((x + (align - 1)) &&& ~~~(align - 1)).toNat = roundUp n (2 ^ k) % 2 ^ 64 := by
  have hpos : 0 < 2 ^ k := Nat.two_pow_pos k
  have hk : k ≤ 64 := by
    have hlt : 2 ^ k < 2 ^ 64 := halign ▸ align.toNat_lt
    exact ((Nat.pow_lt_pow_iff_right Nat.one_lt_two).mp hlt).le
  have hone : (1 : UInt64) ≤ align := by
    rw [UInt64.le_iff_toNat_le, halign]
    exact hpos
  have hmask : (align - 1).toNat = 2 ^ k - 1 := by
    rw [UInt64.toNat_sub_of_le _ _ hone, halign]
    rfl
  have hsum : (x + (align - 1)).toNat = (n + 2 ^ k - 1) % (2 ^ k * 2 ^ (64 - k)) := by
    rw [UInt64.toNat_add, hmask, hx, Nat.mod_add_mod, ← Nat.pow_add, Nat.add_sub_of_le hk,
      Nat.add_sub_assoc hpos]
  rw [toNat_and_complement _ hmask, hsum, Nat.mod_mul_right_div_self, ← Nat.mul_mod_mul_right,
    ← Nat.pow_add, Nat.sub_add_cancel hk, roundUp, Nat.ceilDiv_eq_add_pred_div, Nat.mul_comm]

end Wasapi
