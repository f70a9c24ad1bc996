import Easel.Numeral.Shortest

/-!
# Decimal layouts

A decimal is written in full between two powers of ten, and with an exponent outside them. A
`Layout` says where that is and how an exponent looks.
-/

namespace Easel

/-- Where positional notation ends and how many digits an exponent has at least. -/
structure Decimal.Layout where
  /-- The least power of ten of a first digit that is written in full. -/
  least : Int
  /-- The least power of ten above those written in full. -/
  bound : Int
  /-- The least number of exponent digits. -/
  exponentDigits : Nat

namespace Decimal

/-- The decimal written in full. -/
def positional (d : Decimal) : List Char :=
  let ds := d.digits
  if 0 ≤ d.exponent then ds ++ List.replicate d.exponent.toNat '0'
  else
    let places := (-d.exponent).toNat
    if places < ds.length then
      ds.take (ds.length - places) ++ '.' :: ds.drop (ds.length - places)
    else '0' :: '.' :: (List.replicate (places - ds.length) '0' ++ ds)

/-- The digits of an exponent, padded with zeros to a least number. -/
def exponentText (width : Nat) (n : Nat) : List Char :=
  let ds := Nat.toDigits 10 n
  List.replicate (width - ds.length) '0' ++ ds

/-- The decimal with one digit before the point and a signed exponent. -/
def scientific (width : Nat) (d : Decimal) : List Char :=
  let mantissa := match d.digits with
    | [] => []
    | [c] => [c]
    | c :: rest => c :: '.' :: rest
  let sign := if 0 ≤ d.leading then '+' else '-'
  mantissa ++ 'e' :: sign :: exponentText width d.leading.natAbs

/-- The decimal in a layout. -/
def format (layout : Layout) (d : Decimal) : String :=
  String.ofList <|
    if layout.least ≤ d.leading ∧ d.leading < layout.bound then d.positional
    else d.scientific layout.exponentDigits

end Decimal

namespace Numeral

/-- Scripts and printed trees write numbers in full from `1e-6` up to below `1e21`, and exponents
without padding. -/
def scriptLayout : Decimal.Layout := ⟨-6, 21, 1⟩

/-- Outlines write fractional numbers in full from `1e-4` up to below `1e6`, and exponents with two
digits. -/
def outlineLayout : Decimal.Layout := ⟨-4, 6, 2⟩

/-- The number as a script spells it. -/
def text (v : Numeral) : String := v.shortest.format scriptLayout

/-- The number as an outline spells it: whole numbers in full with one decimal. -/
def outlineText (v : Numeral) : String :=
  if v.isWhole then s!"{v.whole}.0" else v.shortest.format outlineLayout

end Numeral

end Easel
