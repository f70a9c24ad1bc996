import Easel.Numeral.Basic

/-!
# The shortest decimal of a number

Among the decimals that denote a number, `shortest` takes one with the fewest digits, and of those
the nearest to the number. A decimal denotes the number if it lies between the midpoints to the two
neighbouring numbers; a midpoint itself does so when the mantissa is even.
-/

namespace Easel

/-- The decimal `coefficient * 10 ^ exponent`. -/
structure Decimal where
  coefficient : Nat
  exponent : Int
  deriving DecidableEq, Repr

namespace Decimal

/-- The decimal digits of the coefficient. -/
def digits (d : Decimal) : List Char := Nat.toDigits 10 d.coefficient

/-- The power of ten of the first digit. -/
def leading (d : Decimal) : Int := d.exponent + d.digits.length - 1

end Decimal

namespace Numeral

/-- Four times the number of units in the number. -/
def quarters (v : Numeral) : Nat := 4 * v.mantissa * Nat.pow 2 v.exponent

/-- Four times the number of units at the midpoint below. Below a power of two the next number is
half as far away. -/
def lowQuarters (v : Numeral) : Nat :=
  let gap := if v.mantissa = Nat.pow 2 52 ∧ 0 < v.exponent then 1 else 2
  (4 * v.mantissa - gap) * Nat.pow 2 v.exponent

/-- Four times the number of units at the midpoint above. -/
def highQuarters (v : Numeral) : Nat := (4 * v.mantissa + 2) * Nat.pow 2 v.exponent

/-- Whether `num / den` quarter units denote the number. -/
def covers (v : Numeral) (num den : Nat) : Bool :=
  let low := v.lowQuarters * den
  let high := v.highQuarters * den
  if v.mantissa % 2 = 0 then low ≤ num && num ≤ high else low < num && num < high

/-- The decimal at the power of ten `p` that denotes the number, if there is one: the neighbour
below or above, whichever is nearer, and the even one at equal distance. -/
def atPower (v : Numeral) (p : Int) : Option Decimal :=
  let scale := 4 * unitsPerOne * Nat.pow 10 p.toNat
  let den := Nat.pow 10 (-p).toNat
  let value := v.quarters * den
  let below := value / scale
  let above := below + 1
  match v.covers (below * scale) den, v.covers (above * scale) den with
  | true, false => some ⟨below, p⟩
  | false, true => some ⟨above, p⟩
  | true, true => some ⟨roundDiv value scale, p⟩
  | false, false => none

/-- The first hit from the power of ten `p` downwards, over `steps` powers. -/
def firstHit (v : Numeral) : Nat → Int → Option Decimal
  | 0, _ => none
  | steps + 1, p => (v.atPower p).orElse fun _ => firstHit v steps (p - 1)

/-- A power of ten above the number. -/
def powerAbove (v : Numeral) : Int :=
  ((Nat.log2 v.quarters : Int) - 1076) * 1233 / 4096 + 2

/-- The exact decimal of the number. -/
def exact (v : Numeral) : Decimal := ⟨v.mantissa * Nat.pow 2 v.exponent * Nat.pow 5 1074, -1074⟩

/-- The shortest decimal that denotes the number. -/
def shortest (v : Numeral) : Decimal :=
  if v.mantissa = 0 then ⟨0, 0⟩ else (v.firstHit 24 v.powerAbove).getD v.exact

end Numeral

end Easel
