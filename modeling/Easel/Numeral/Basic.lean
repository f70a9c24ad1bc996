import Easel.Text.CharClass

/-!
# Numbers of the language

A number is a non-negative binary floating point number with a mantissa of 53 bits. It is held as
`mantissa * 2 ^ exponent` units, where a unit is the least positive number, `2 ^ (-1074)`. A literal
denotes the nearest such number, a tie going to the even mantissa; beyond the greatest number it
denotes nothing.
-/

namespace Easel

/-- The number `mantissa * 2 ^ exponent` units of `2 ^ (-1074)`. -/
structure Numeral where
  mantissa : Nat
  exponent : Nat
  deriving DecidableEq, Repr

namespace Numeral

/-- The number of units in one. -/
def unitsPerOne : Nat := Nat.pow 2 1074

/-- The greatest exponent. -/
def maxExponent : Nat := 2045

/-- The quotient rounded to the nearest whole number, a half going to the even neighbour. -/
def roundDiv (num den : Nat) : Nat :=
  let q := num / den
  let r := num % den
  if 2 * r < den then q
  else if den < 2 * r then q + 1
  else if q % 2 = 0 then q else q + 1

/-- The number nearest to `num / den` units. -/
def ofUnits (num den : Nat) : Option Numeral :=
  let shift := Nat.log2 (num / den) + 1 - 53
  let m := roundDiv num (den * Nat.pow 2 shift)
  let (mantissa, exponent) := if m = Nat.pow 2 53 then (Nat.pow 2 52, shift + 1) else (m, shift)
  if exponent ≤ maxExponent then some ⟨mantissa, exponent⟩ else none

/-- The number nearest to `coefficient / 10 ^ places`. -/
def ofDecimal (coefficient places : Nat) : Option Numeral :=
  ofUnits (coefficient * unitsPerOne) (Nat.pow 10 places)

/-- The value of a sequence of decimal digits. -/
def digitsValue (ds : List Char) : Nat :=
  ds.foldl (fun n d => n * 10 + (d.toNat - 48)) 0

/-- The number a literal denotes: digits, and perhaps a point and more digits. -/
def ofLiteral? (literal : List Char) : Option Numeral :=
  let whole := literal.takeWhile Text.isAsciiDigit
  match literal.dropWhile Text.isAsciiDigit with
  | [] => if whole.isEmpty then none else ofDecimal (digitsValue whole) 0
  | '.' :: fraction =>
    if fraction.all Text.isAsciiDigit && !(whole.isEmpty && fraction.isEmpty) then
      ofDecimal (digitsValue (whole ++ fraction)) fraction.length
    else none
  | _ => none

/-- Whether the number is a whole number. -/
def isWhole (v : Numeral) : Bool := v.mantissa * Nat.pow 2 v.exponent % unitsPerOne == 0

/-- The whole part of the number. -/
def whole (v : Numeral) : Nat := v.mantissa * Nat.pow 2 v.exponent / unitsPerOne

end Numeral

end Easel
