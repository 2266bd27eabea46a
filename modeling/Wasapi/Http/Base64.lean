import Wasapi.Library.Base64
import Wasapi.Websockets.Http

/-!
# Base64

`base64_encode` as its loop runs: by index, three octets a turn in a word of 32 bits, with a test
for each octet that may be missing. It writes what RFC 4648 says.
-/

namespace Wasapi.Http

open Websockets (base64Table)

def tbl (v : UInt32) : UInt8 := base64Table.getD v.toNat 0

/-- The loop from `i`, with what has been written. -/
def base64Loop (data : Bytes) : ℕ → ℕ → Bytes → Bytes
  | 0, _, out => out
  | fuel + 1, i, out =>
    if i < data.length then
      let v := (data.getD i 0).toUInt32 <<< 16
      let v := if i + 1 < data.length then v ||| (data.getD (i + 1) 0).toUInt32 <<< 8 else v
      let v := if i + 2 < data.length then v ||| (data.getD (i + 2) 0).toUInt32 else v
      let out := out ++ [tbl ((v >>> 18) &&& 63)]
      let out := out ++ [tbl ((v >>> 12) &&& 63)]
      let out := out ++ [if i + 1 < data.length then tbl ((v >>> 6) &&& 63) else 61]
      let out := out ++ [if i + 2 < data.length then tbl (v &&& 63) else 61]
      base64Loop data fuel (i + 3) out
    else out

/-- `base64_encode` -/
def base64Encode (data : Bytes) : Bytes := base64Loop data data.length 0 []

/-! ## The word

The program packs three octets into 32 bits and takes six bits for each symbol out of the packed
word. That is division and remainder by 64 on the number they denote. -/

private theorem base64Table_getD : ∀ n < 64, base64Table.getD n 0 = Base64.standard.symbol n := by
  decide +kernel

/-- The last six bits of a word select a symbol. -/
theorem tbl_low (v : UInt32) : tbl (v &&& 63) = Base64.standard.symbol (v.toNat % 64) := by
  have hmod : (v &&& 63).toNat = v.toNat % 64 := by
    rw [UInt32.toNat_and]
    exact Nat.and_two_pow_sub_one_eq_mod v.toNat 6
  rw [tbl, hmod, base64Table_getD _ (Nat.mod_lt _ (by norm_num))]

/-- A word packed from three octets is the number they denote. -/
theorem toNat_packed (a b c : UInt8) :
    (a.toUInt32 <<< 16 ||| b.toUInt32 <<< 8 ||| c.toUInt32).toNat = beValue [a, b, c] := by
  have hshift (x : UInt8) {k : ℕ} (hk : k ≤ 16) : x.toNat <<< k % 2 ^ 32 = x.toNat <<< k := by
    rw [Nat.shiftLeft_eq]
    refine Nat.mod_eq_of_lt ?_
    calc x.toNat * 2 ^ k
        ≤ x.toNat * 2 ^ 16 := Nat.mul_le_mul_left _ (Nat.pow_le_pow_right (by norm_num) hk)
      _ < 2 ^ 32 := by
          have hx : x.toNat < 256 := x.toNat_lt
          omega
  have hvalue := shift_or_octets 0 a b c
  rw [Nat.zero_shiftLeft, Nat.zero_or] at hvalue
  rw [UInt32.toNat_or, UInt32.toNat_or, UInt32.toNat_shiftLeft, UInt32.toNat_shiftLeft]
  simp only [UInt8.toNat_toUInt32, UInt32.reduceToNat, Nat.reduceMod]
  rw [hshift a le_rfl, hshift b (by norm_num), hvalue]
  rfl

private theorem tbl_packed (a b c : UInt8) {k : UInt32} (hk : k < 32) :
    tbl (((a.toUInt32 <<< 16 ||| b.toUInt32 <<< 8 ||| c.toUInt32) >>> k) &&& 63)
      = Base64.standard.symbol (beValue [a, b, c] / 2 ^ k.toNat % 64) := by
  have hk' : k.toNat % 32 = k.toNat := Nat.mod_eq_of_lt (UInt32.lt_iff_toNat_lt.mp hk)
  rw [tbl_low, UInt32.toNat_shiftRight, toNat_packed, hk', Nat.shiftRight_eq_div_pow]

/-! ## One turn

A turn writes four symbols. At the end of the data one or two of them are padding, which the loop
decides by comparing indices with the length. -/

theorem encode_one (a : UInt8) :
    Base64.standard.encode [a] =
      [tbl (((a.toUInt32 <<< 16) >>> 18) &&& 63), tbl (((a.toUInt32 <<< 16) >>> 12) &&& 63),
        61, 61] := by
  have hword : a.toUInt32 <<< 16
      = a.toUInt32 <<< 16 ||| (0 : UInt8).toUInt32 <<< 8 ||| (0 : UInt8).toUInt32 := by
    simp
  rw [hword, tbl_packed a 0 0 (by decide), tbl_packed a 0 0 (by decide)]
  exact Base64.standard.encode_one a

theorem encode_two (a b : UInt8) :
    Base64.standard.encode [a, b] =
      [tbl (((a.toUInt32 <<< 16 ||| b.toUInt32 <<< 8) >>> 18) &&& 63),
        tbl (((a.toUInt32 <<< 16 ||| b.toUInt32 <<< 8) >>> 12) &&& 63),
        tbl (((a.toUInt32 <<< 16 ||| b.toUInt32 <<< 8) >>> 6) &&& 63), 61] := by
  have hword : a.toUInt32 <<< 16 ||| b.toUInt32 <<< 8
      = a.toUInt32 <<< 16 ||| b.toUInt32 <<< 8 ||| (0 : UInt8).toUInt32 := by
    simp
  rw [hword, tbl_packed a b 0 (by decide), tbl_packed a b 0 (by decide),
    tbl_packed a b 0 (by decide)]
  exact Base64.standard.encode_two a b

theorem encode_three (a b c : UInt8) (rest : Bytes) :
    Base64.standard.encode (a :: b :: c :: rest) =
      [tbl (((a.toUInt32 <<< 16 ||| b.toUInt32 <<< 8 ||| c.toUInt32) >>> 18) &&& 63),
        tbl (((a.toUInt32 <<< 16 ||| b.toUInt32 <<< 8 ||| c.toUInt32) >>> 12) &&& 63),
        tbl (((a.toUInt32 <<< 16 ||| b.toUInt32 <<< 8 ||| c.toUInt32) >>> 6) &&& 63),
        tbl ((a.toUInt32 <<< 16 ||| b.toUInt32 <<< 8 ||| c.toUInt32) &&& 63)]
        ++ Base64.standard.encode rest := by
  rw [tbl_packed a b c (by decide), tbl_packed a b c (by decide), tbl_packed a b c (by decide),
    tbl_low, toNat_packed]
  exact Base64.standard.encode_three a b c rest

/-! ## The loop

By index the loop is at a multiple of three, so what is left of the data is what the encoding by
groups works on next. -/

private theorem base64Loop_eq {data : Bytes} {fuel i : ℕ} (h : data.length ≤ i + fuel)
    (out : Bytes) : base64Loop data fuel i out = out ++ Base64.standard.encode (data.drop i) := by
  induction fuel generalizing i out with
  | zero => rw [List.drop_eq_nil_of_le (by omega), base64Loop, Base64.encode, List.append_nil]
  | succ fuel ih =>
    have hlength : (data.drop i).length = data.length - i := List.length_drop
    have hread (k : ℕ) : data.getD (i + k) 0 = (data.drop i).getD k 0 := by
      rw [List.getD_eq_getElem?_getD, List.getD_eq_getElem?_getD, List.getElem?_drop]
    have hnext : data.drop (i + 3) = (data.drop i).drop 3 := List.drop_drop.symm
    have h₀ := hread 0
    have h₁ := hread 1
    have h₂ := hread 2
    rw [Nat.add_zero] at h₀
    rw [base64Loop]
    simp only [ih (i := i + 3) (by omega), hnext, h₀, h₁, h₂, List.append_assoc]
    rcases hrest : data.drop i with _ | ⟨a, _ | ⟨b, _ | ⟨c, rest⟩⟩⟩
    · rw [hrest, List.length_nil] at hlength
      rw [if_neg (by omega), Base64.encode, List.append_nil]
    · rw [hrest, List.length_singleton] at hlength
      have hi : i < data.length := by omega
      have hi₁ : ¬i + 1 < data.length := by omega
      have hi₂ : ¬i + 2 < data.length := by omega
      simp only [if_pos hi, if_neg hi₁, if_neg hi₂, encode_one]
      rfl
    · rw [hrest, List.length_cons, List.length_singleton] at hlength
      have hi : i < data.length := by omega
      have hi₁ : i + 1 < data.length := by omega
      have hi₂ : ¬i + 2 < data.length := by omega
      simp only [if_pos hi, if_pos hi₁, if_neg hi₂, encode_two]
      rfl
    · rw [hrest, List.length_cons, List.length_cons, List.length_cons] at hlength
      have hi : i < data.length := by omega
      have hi₁ : i + 1 < data.length := by omega
      have hi₂ : i + 2 < data.length := by omega
      simp only [if_pos hi, if_pos hi₁, if_pos hi₂, encode_three]
      rfl

/-- **The loop refines the encoding of RFC 4648.** -/
theorem base64Encode_eq (data : Bytes) : base64Encode data = Base64.standard.encode data := by
  rw [base64Encode, base64Loop_eq (by omega), List.nil_append, List.drop_zero]

/-- The encoding by threes that answers a websocket key is the same. -/
theorem websockets_base64Encode_eq (data : Bytes) :
    Websockets.base64Encode data = base64Encode data := by
  rw [base64Encode_eq]
  have hdigit (n : ℕ) : Websockets.base64Digit n = Base64.standard.symbol (n % 64) :=
    base64Table_getD _ (Nat.mod_lt _ (by norm_num))
  fun_induction Websockets.base64Encode data with
  | case1 => rfl
  | case2 a v =>
    have hvalue : v = beValue [a, 0, 0] := by
      simp only [v, beValue, List.foldl_cons, List.foldl_nil, UInt8.toNat_zero]
      omega
    rw [hdigit, hdigit, hvalue]
    exact (Base64.standard.encode_one a).symm
  | case3 a b v =>
    have hvalue : v = beValue [a, b, 0] := by
      simp only [v, beValue, List.foldl_cons, List.foldl_nil, UInt8.toNat_zero]
      omega
    rw [hdigit, hdigit, hdigit, hvalue]
    exact (Base64.standard.encode_two a b).symm
  | case4 a b c data v ih =>
    have hvalue : v = beValue [a, b, c] := by
      simp only [v, beValue, List.foldl_cons, List.foldl_nil]
      omega
    rw [hdigit, hdigit, hdigit, hdigit, hvalue, ih]
    exact (Base64.standard.encode_three a b c data).symm

/-- **`base64_encode` is base 64**: of the right length, digits and then padding, and the decoder of
RFC 4648 gives the octets back. -/
theorem base64Encode_rfc4648 :
    (∀ data, (base64Encode data).length = 4 * ((data.length + 2) / 3) ∧
      (∃ digits : Bytes, (∀ b ∈ digits, (Base64.standard.digit b).isSome) ∧
        base64Encode data = digits ++ List.replicate ((3 - data.length % 3) % 3) 61) ∧
      Base64.standard.decode (base64Encode data) = some data) ∧
    Function.Injective base64Encode := by
  have heq : base64Encode = Base64.standard.encode := funext base64Encode_eq
  rw [heq]
  refine ⟨fun data ↦ ⟨?_, ?_, ?_⟩, ?_⟩
  · exact Base64.standard.length_encode data
  · exact Base64.standard.exists_digits_encode data
  · exact Base64.standard.decode_encode data
  · exact Base64.standard.encode_injective

end Wasapi.Http
