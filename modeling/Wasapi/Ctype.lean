import Wasapi.DynamicVariable

/-!
# Character classes

The functions of `<cctype>` the program calls, in the C locale.
-/

namespace Wasapi

/-- `std::tolower` -/
def toLower (b : UInt8) : UInt8 := if 65 ≤ b && b ≤ 90 then b + 32 else b

/-- `std::toupper` -/
def toUpper (b : UInt8) : UInt8 := if 97 ≤ b && b ≤ 122 then b - 32 else b

/-- `std::isspace` -/
def isSpace (b : UInt8) : Bool := b = 32 || (9 ≤ b && b ≤ 13)

/-- `std::isdigit` -/
def isDigit (b : UInt8) : Bool := 48 ≤ b && b ≤ 57

end Wasapi
