/-!
# Character classes and decimal digits

A class of characters is a list of runs: the number of code points outside the class and then of
those inside it, in turn, from zero on.

The tables of Unicode classes are those of a toolchain with Unicode 17.0: U+A7CE, U+16EA0 and
U+323B0, which are new in that version, are letters. With a toolchain of an older version fewer
characters are letters, digits or printable.
-/

namespace Easel.Text

/-- Whether the `n`-th code point of the runs lies inside the class. -/
def inRuns (n : Nat) : List Nat → Bool
  | outside :: inside :: rest =>
    outside ≤ n && (n < outside + inside || inRuns (n - (outside + inside)) rest)
  | _ => false

/-- An ASCII decimal digit. -/
def isAsciiDigit (c : Char) : Bool := '0' ≤ c && c ≤ '9'

/-- The runs of the general category `Nd`. -/
def digitRuns : List Nat := [
  48, 10, 1574, 10, 134, 10, 198, 10, 412, 10, 118, 10, 118, 10, 118, 10, 118, 10, 118, 10, 118, 10,
  118, 10, 118, 10, 118, 10, 96, 10, 118, 10, 70, 10, 278, 10, 70, 10, 1862, 10, 38, 10, 300, 10,
  128, 10, 166, 10, 6, 10, 182, 10, 86, 10, 134, 10, 6, 10, 35270, 10, 678, 10, 38, 10, 198, 10, 22,
  10, 86, 10, 406, 10, 21270, 10, 1414, 10, 2182, 10, 6, 10, 796, 10, 128, 10, 60, 10, 144, 10, 278,
  10, 342, 10, 118, 10, 374, 10, 102, 10, 6, 20, 76, 10, 422, 10, 102, 10, 662, 10, 86, 10, 246, 10,
  70, 10, 54, 10, 358, 10, 16854, 10, 2342, 10, 86, 10, 134, 10, 534, 10, 24438, 10, 2772, 50, 2368,
  10, 422, 10, 502, 10, 247, 10, 853, 10, 4758, 10]

/-- Whether a character is a decimal digit of some script. -/
def isDigit (c : Char) : Bool := inRuns c.toNat digitRuns

end Easel.Text
