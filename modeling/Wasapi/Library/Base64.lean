import Mathlib
import Wasapi.Library.BigEndian

/-!
# Base 64

Three octets are four digits of six bits. One or two octets at the end are two or three digits, the
bits that are missing are zero, and padding makes up the group of four.

An alphabet is any set of symbols; that its digits can be told apart, and from the padding, is part
of it. The decoder is strict: padding at the end only, and no bits set behind the last octet. The
standard alphabet is the one of RFC 4648.
-/

namespace Wasapi

/-- Symbols for the digits below 64, and one for padding. -/
structure Base64 (α : Type*) where
  symbol : ℕ → α
  /-- The digit a symbol stands for. -/
  digit : α → Option ℕ
  pad : α
  digit_symbol : ∀ n < 64, digit (symbol n) = some n
  digit_pad : digit pad = none

namespace Base64

variable {α : Type*}

section

variable (A : Base64 α)

def encode : List UInt8 → List α
  | [] => []
  | [a] =>
    let v := beValue [a] * 2 ^ 4
    [A.symbol (v / 64), A.symbol (v % 64), A.pad, A.pad]
  | [a, b] =>
    let v := beValue [a, b] * 2 ^ 2
    [A.symbol (v / 64 ^ 2), A.symbol (v / 64 % 64), A.symbol (v % 64), A.pad]
  | a :: b :: c :: data =>
    let v := beValue [a, b, c]
    A.symbol (v / 64 ^ 3) :: A.symbol (v / 64 ^ 2 % 64) :: A.symbol (v / 64 % 64)
      :: A.symbol (v % 64) :: encode data

variable [DecidableEq α]

/-- The group with the padding. -/
def decodeLast (a b c : α) : Option (List UInt8) := do
  let x ← A.digit a
  let y ← A.digit b
  if c = A.pad then
    let v := x * 64 + y
    if v % 2 ^ 4 = 0 then some (beBytes 1 (v / 2 ^ 4)) else none
  else
    let z ← A.digit c
    let v := (x * 64 + y) * 64 + z
    if v % 2 ^ 2 = 0 then some (beBytes 2 (v / 2 ^ 2)) else none

def decode : List α → Option (List UInt8)
  | [] => some []
  | a :: b :: c :: d :: text =>
    if d = A.pad then
      if text.isEmpty then A.decodeLast a b c else none
    else do
      let x ← A.digit a
      let y ← A.digit b
      let z ← A.digit c
      let w ← A.digit d
      let data ← decode text
      some (beBytes 3 (((x * 64 + y) * 64 + z) * 64 + w) ++ data)
  | _ => none

end

variable {A : Base64 α}

theorem symbol_ne_pad {n : ℕ} (h : n < 64) : A.symbol n ≠ A.pad := by
  intro heq
  have hdigit := A.digit_symbol n h
  rw [heq, A.digit_pad] at hdigit
  cases hdigit

variable (A) in
theorem length_encode (data : List UInt8) :
    (A.encode data).length = 4 * ((data.length + 2) / 3) := by
  fun_induction encode A data with
  | case1 => rfl
  | case2 a => simp only [List.length_cons, List.length_nil, Nat.reduceAdd, Nat.reduceDiv]
  | case3 a b => simp only [List.length_cons, List.length_nil, Nat.reduceAdd, Nat.reduceDiv]
  | case4 a b c data v ih =>
    simp only [List.length_cons, ih]
    omega

variable (A) in
/-- Digits, and behind them as much padding as the octets leave open. -/
theorem exists_digits_encode (data : List UInt8) :
    ∃ digits : List α, (∀ s ∈ digits, (A.digit s).isSome) ∧
      A.encode data = digits ++ List.replicate ((3 - data.length % 3) % 3) A.pad := by
  have hsymbol : ∀ n < 64, (A.digit (A.symbol n)).isSome := by
    intro n hn
    rw [A.digit_symbol n hn, Option.isSome_some]
  fun_induction encode A data with
  | case1 => exact ⟨[], fun s hs ↦ (nomatch hs), rfl⟩
  | case2 a v =>
    have ha : beValue [a] < 256 ^ 1 := beValue_lt [a]
    refine ⟨[A.symbol (v / 64), A.symbol (v % 64)], ?_, rfl⟩
    simp only [List.forall_mem_cons, List.not_mem_nil, false_imp_iff, implies_true, and_true]
    exact ⟨hsymbol _ (by omega), hsymbol _ (by omega)⟩
  | case3 a b v =>
    have hab : beValue [a, b] < 256 ^ 2 := beValue_lt [a, b]
    refine ⟨[A.symbol (v / 64 ^ 2), A.symbol (v / 64 % 64), A.symbol (v % 64)], ?_, rfl⟩
    simp only [List.forall_mem_cons, List.not_mem_nil, false_imp_iff, implies_true, and_true]
    exact ⟨hsymbol _ (by omega), hsymbol _ (by omega), hsymbol _ (by omega)⟩
  | case4 a b c data v ih =>
    have hv : v < 256 ^ 3 := beValue_lt [a, b, c]
    obtain ⟨digits, hdigits, heq⟩ := ih
    refine ⟨A.symbol (v / 64 ^ 3) :: A.symbol (v / 64 ^ 2 % 64) :: A.symbol (v / 64 % 64)
      :: A.symbol (v % 64) :: digits, ?_, ?_⟩
    · simp only [List.forall_mem_cons]
      exact ⟨hsymbol _ (by omega), hsymbol _ (by omega), hsymbol _ (by omega),
        hsymbol _ (by omega), hdigits⟩
    · have hmod : (data.length + 1 + 1 + 1) % 3 = data.length % 3 := by omega
      simp only [heq, List.length_cons, hmod, List.cons_append]

section

variable [DecidableEq α]

theorem decodeLast_one (a : UInt8) :
    A.decodeLast (A.symbol (beValue [a] * 2 ^ 4 / 64)) (A.symbol (beValue [a] * 2 ^ 4 % 64)) A.pad
      = some [a] := by
  have ha : beValue [a] < 256 ^ 1 := beValue_lt [a]
  have hvalue : beValue [a] * 2 ^ 4 / 64 * 64 + beValue [a] * 2 ^ 4 % 64
      = beValue [a] * 2 ^ 4 := Nat.div_add_mod' _ _
  rw [decodeLast, A.digit_symbol _ (by omega), A.digit_symbol _ (by omega)]
  simp only [Option.bind_eq_bind, Option.bind_some, if_true, hvalue]
  rw [Nat.mul_mod_left, if_pos rfl, Nat.mul_div_cancel _ (by norm_num)]
  exact congrArg some (beBytes_beValue [a])

theorem decodeLast_two (a b : UInt8) :
    A.decodeLast (A.symbol (beValue [a, b] * 2 ^ 2 / 64 ^ 2))
        (A.symbol (beValue [a, b] * 2 ^ 2 / 64 % 64)) (A.symbol (beValue [a, b] * 2 ^ 2 % 64))
      = some [a, b] := by
  have hab : beValue [a, b] < 256 ^ 2 := beValue_lt [a, b]
  have hvalue : (beValue [a, b] * 2 ^ 2 / 64 ^ 2 * 64 + beValue [a, b] * 2 ^ 2 / 64 % 64) * 64
      + beValue [a, b] * 2 ^ 2 % 64 = beValue [a, b] * 2 ^ 2 := by omega
  rw [decodeLast, A.digit_symbol _ (by omega), A.digit_symbol _ (by omega)]
  simp only [Option.bind_eq_bind, Option.bind_some]
  rw [if_neg (symbol_ne_pad (by omega)), A.digit_symbol _ (by omega)]
  simp only [Option.bind_some, hvalue]
  rw [Nat.mul_mod_left, if_pos rfl, Nat.mul_div_cancel _ (by norm_num)]
  exact congrArg some (beBytes_beValue [a, b])

variable (A) in
/-- **Decoding undoes encoding.** -/
theorem decode_encode (data : List UInt8) : A.decode (A.encode data) = some data := by
  fun_induction encode A data with
  | case1 => rfl
  | case2 a v =>
    rw [decode, if_pos rfl]
    exact decodeLast_one a
  | case3 a b v =>
    rw [decode, if_pos rfl]
    exact decodeLast_two a b
  | case4 a b c data v ih =>
    have hv : v < 256 ^ 3 := beValue_lt [a, b, c]
    have hvalue : ((v / 64 ^ 3 * 64 + v / 64 ^ 2 % 64) * 64 + v / 64 % 64) * 64 + v % 64 = v := by
      omega
    rw [decode, if_neg (symbol_ne_pad (by omega)), A.digit_symbol _ (by omega),
      A.digit_symbol _ (by omega), A.digit_symbol _ (by omega), A.digit_symbol _ (by omega), ih]
    simp only [Option.bind_eq_bind, Option.bind_some, hvalue]
    exact congrArg (fun bs ↦ some (bs ++ data)) (beBytes_beValue [a, b, c])

end

theorem encode_injective (A : Base64 α) : Function.Injective A.encode := by
  classical
  intro data data' h
  have hdecode := A.decode_encode data
  rw [h, A.decode_encode data', Option.some.injEq] at hdecode
  exact hdecode.symm

/-! ## Words of 24 bits

How programs compute it: three octets are shifted into a word, and the digits are cut out of the
word again. That both give the same digits is arithmetic on numbers below `2 ^ 24`. -/

section

variable (A : Base64 α)

theorem encode_one (a : UInt8) :
    A.encode [a] = [A.symbol (beValue [a, 0, 0] / 2 ^ 18 % 64),
      A.symbol (beValue [a, 0, 0] / 2 ^ 12 % 64), A.pad, A.pad] := by
  have hvalue : beValue [a, 0, 0] = beValue [a] * 2 ^ 16 := by
    simp only [beValue, List.foldl_cons, List.foldl_nil, UInt8.toNat_zero]
    omega
  have ha : beValue [a] < 256 ^ 1 := beValue_lt [a]
  have hfirst : beValue [a, 0, 0] / 2 ^ 18 % 64 = beValue [a] * 2 ^ 4 / 64 := by omega
  have hsecond : beValue [a, 0, 0] / 2 ^ 12 % 64 = beValue [a] * 2 ^ 4 % 64 := by omega
  rw [encode, hfirst, hsecond]

theorem encode_two (a b : UInt8) :
    A.encode [a, b] = [A.symbol (beValue [a, b, 0] / 2 ^ 18 % 64),
      A.symbol (beValue [a, b, 0] / 2 ^ 12 % 64), A.symbol (beValue [a, b, 0] / 2 ^ 6 % 64),
      A.pad] := by
  have hvalue : beValue [a, b, 0] = beValue [a, b] * 2 ^ 8 := by
    simp only [beValue, List.foldl_cons, List.foldl_nil, UInt8.toNat_zero]
    omega
  have hab : beValue [a, b] < 256 ^ 2 := beValue_lt [a, b]
  have hfirst : beValue [a, b, 0] / 2 ^ 18 % 64 = beValue [a, b] * 2 ^ 2 / 64 ^ 2 := by omega
  have hsecond : beValue [a, b, 0] / 2 ^ 12 % 64 = beValue [a, b] * 2 ^ 2 / 64 % 64 := by omega
  have hthird : beValue [a, b, 0] / 2 ^ 6 % 64 = beValue [a, b] * 2 ^ 2 % 64 := by omega
  rw [encode, hfirst, hsecond, hthird]

theorem encode_three (a b c : UInt8) (data : List UInt8) :
    A.encode (a :: b :: c :: data) = A.symbol (beValue [a, b, c] / 2 ^ 18 % 64)
      :: A.symbol (beValue [a, b, c] / 2 ^ 12 % 64) :: A.symbol (beValue [a, b, c] / 2 ^ 6 % 64)
      :: A.symbol (beValue [a, b, c] % 64) :: A.encode data := by
  have hv : beValue [a, b, c] < 256 ^ 3 := beValue_lt [a, b, c]
  have hfirst : beValue [a, b, c] / 2 ^ 18 % 64 = beValue [a, b, c] / 64 ^ 3 := by omega
  rw [encode, hfirst]
  rfl

end

/-! ## The standard alphabet -/

def standardSymbol (n : ℕ) : UInt8 :=
  if n < 26 then UInt8.ofNat (65 + n)
  else if n < 52 then UInt8.ofNat (97 + (n - 26))
  else if n < 62 then UInt8.ofNat (48 + (n - 52))
  else if n = 62 then 43
  else 47

def standardDigit (b : UInt8) : Option ℕ :=
  if 65 ≤ b ∧ b ≤ 90 then some (b.toNat - 65)
  else if 97 ≤ b ∧ b ≤ 122 then some (b.toNat - 97 + 26)
  else if 48 ≤ b ∧ b ≤ 57 then some (b.toNat - 48 + 52)
  else if b = 43 then some 62
  else if b = 47 then some 63
  else none

/-- Capital letters, small letters, digits, `+` and `/`, padded with `=`. -/
def standard : Base64 UInt8 where
  symbol := standardSymbol
  digit := standardDigit
  pad := 61
  digit_symbol := by decide
  digit_pad := rfl

end Base64

end Wasapi
