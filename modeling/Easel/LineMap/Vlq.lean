import Easel.Text.Quoted

/-!
# Variable-length quantities

A signed number is written in base 32, least significant digit first: its sign is the lowest bit,
and a digit that is not the last has 32 added. The digits from 0 to 63 are written as the characters
of `alphabet`. Numbers are held in 64 bits.
-/

namespace Easel.Vlq

/-- The characters of the digits. -/
def alphabet : List Char :=
  "ABCDEFGHIJKLMNOPQRSTUVWXYZabcdefghijklmnopqrstuvwxyz0123456789+/".toList

/-- A number as it is held in 64 bits with a sign. -/
def wrap (n : Int) : Int := Int.bmod n (Nat.pow 2 64)

/-- The character of a digit. -/
def digitChar (d : Nat) : Char := alphabet.getD d 'A'

/-- The digits of a number; the first argument bounds how many come after the first. -/
def digitsOf : Nat → Nat → List Char
  | 0, n => [digitChar (n % 32)]
  | k + 1, n =>
    if n / 32 = 0 then [digitChar (n % 32)]
    else digitChar (n % 32 + 32) :: digitsOf k (n / 32)

/-- The number with its sign as the lowest bit. -/
def signed (v : Int) : Int :=
  if v < 0 then wrap (2 * wrap (-v)) + 1 else wrap (2 * v)

/-- The digits of a signed number. From `2 ^ 62` on `signed v` is negative, and shifting it leads to
no last digit; the digit of zero stands for it here. -/
def encode (v : Int) : List Char := digitsOf 13 (signed v).toNat

/-- Why a text is no sequence of numbers. -/
inductive Error where
  | invalidDigit (byte : UInt8)
  | truncated
  deriving DecidableEq, Repr

def Error.message : Error → String
  | .invalidDigit byte => s!"invalid base64 digit {Text.quoteOne (Char.ofNat byte.toNat)}"
  | .truncated => "truncated VLQ segment"

/-- The digit a byte stands for. -/
def digit? (byte : UInt8) : Option Nat :=
  let i := alphabet.idxOf (Char.ofNat byte.toNat)
  if i < 64 then some i else none

/-- The signed number of a number that has its sign as the lowest bit. -/
def unsigned (n : Nat) : Int :=
  let w := wrap n
  let v := w / 2
  if n % 2 = 1 then wrap (-v) else v

/-- The numbers of a text from the digit with the given place value on; `pending` is the value of
the digits of an unfinished number. -/
def decodeFrom (place pending : Nat) : List UInt8 → Except Error (List Int)
  | [] => if place = 1 then .ok [] else .error .truncated
  | byte :: rest =>
    match digit? byte with
    | none => .error (.invalidDigit byte)
    | some d =>
      let n := pending + d % 32 * place
      if 32 ≤ d then decodeFrom (place * 32) n rest
      else (decodeFrom 1 0 rest).map (unsigned n :: ·)

/-- The numbers of a text. -/
def decode (bytes : List UInt8) : Except Error (List Int) := decodeFrom 1 0 bytes

end Easel.Vlq
