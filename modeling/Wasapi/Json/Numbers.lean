import Wasapi.Ctype

/-!
# Numbers as text

`std::stod` on the texts `parse_number` gives it, and what `operator<<` writes for a `double`. A
`double` is the rational it denotes, so there are no infinities and no negative zero.
-/

namespace Wasapi.Json

/-- The nearest integer, ties to even. -/
def roundHalfEven (q : ℚ) : ℤ :=
  let n := ⌊q⌋
  if q - n < 1 / 2 then n
  else if 1 / 2 < q - n then n + 1
  else if n % 2 = 0 then n
  else n + 1

/-- The nearest `double`. Numbers that are too large, and those that lose digits because they are
too small, are out of range. -/
def toDouble (q : ℚ) : Option ℚ :=
  if q = 0 then some 0
  else
    let e := max (Int.log 2 |q| - 52) (-1074)
    let d : ℚ := roundHalfEven (q / 2 ^ e) * 2 ^ e
    if 2 ^ 1024 ≤ |d| then none
    else if |d| * 2 ^ 1022 < 1 && d ≠ q then none
    else some d

/-- The number with these decimal digits. -/
def digitsValue (digits : Bytes) : ℕ := digits.foldl (fun n d ↦ n * 10 + (d.toNat - 48)) 0

/-- `std::stod` on a sign, digits and a decimal point, all of them optional; `none` when it throws.
-/
def stod (text : Bytes) : Option ℚ :=
  let negative := text.head? = some 45
  let digits := if negative || text.head? = some 43 then text.tail else text
  let whole := digits.takeWhile isDigit
  let fraction := (digits.drop (whole.length + 1)).takeWhile isDigit
  if whole.isEmpty && fraction.isEmpty then none
  else
    let n : ℚ := digitsValue (whole ++ fraction) / 10 ^ fraction.length
    toDouble (if negative then -n else n)

/-! ## Writing

The digits are those of the number rounded to six. `%g` chooses between the two notations by the
exponent the number has when it has been rounded. -/

/-- The last `k` decimal digits of a number. -/
def decimalDigits (k n : ℕ) : Bytes :=
  (List.range k).reverse.map fun i ↦ UInt8.ofNat (48 + n / 10 ^ i % 10)

/-- A point and the digits behind it, without the zeros at the end. -/
def fractionText (digits : Bytes) : Bytes :=
  let digits := digits.rdropWhile fun d ↦ d = 48
  if digits.isEmpty then [] else 46 :: digits

/-- What `operator<<` writes: six significant digits, in the notation of `%g`. -/
def formatNumber (x : ℚ) : Bytes :=
  if x = 0 then [48]
  else
    let sign : Bytes := if x < 0 then [45] else []
    let e₀ := Int.log 10 |x|
    let m₀ := (roundHalfEven (|x| / 10 ^ (e₀ - 5))).toNat
    let e := if m₀ = 10 ^ 6 then e₀ + 1 else e₀
    let digits := decimalDigits 6 (if m₀ = 10 ^ 6 then 10 ^ 5 else m₀)
    if 0 ≤ e && e < 6 then
      sign ++ digits.take (e.toNat + 1) ++ fractionText (digits.drop (e.toNat + 1))
    else if -4 ≤ e && e < 0 then
      sign ++ 48 :: fractionText (List.replicate (-e - 1).toNat 48 ++ digits)
    else
      let exponent := decimalDigits (if e.natAbs < 100 then 2 else 3) e.natAbs
      sign ++ digits.take 1 ++ fractionText (digits.drop 1)
        ++ 101 :: (if e < 0 then 45 else 43) :: exponent

end Wasapi.Json
