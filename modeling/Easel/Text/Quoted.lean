import Easel.Text.Basic
import Easel.Text.Printable
import Easel.Text.Utf8

/-!
# Quoted text

A quoted text stands between two delimiters. The delimiter and the backslash are escaped by a
backslash, a printable character stands for itself, and every other character is written by a short
escape or by its code point in hexadecimal: two digits below U+0080, four below U+10000, eight
above. A byte that is part of no character is written by its number in two digits.
-/

namespace Easel.Text

/-- The letter of a short escape such as `\n`. -/
def shortEscape? (c : Char) : Option Char :=
  match c.toNat with
  | 0x07 => some 'a'
  | 0x08 => some 'b'
  | 0x09 => some 't'
  | 0x0a => some 'n'
  | 0x0b => some 'v'
  | 0x0c => some 'f'
  | 0x0d => some 'r'
  | _ => none

/-- One character between delimiters. -/
def quoteChar (delimiter c : Char) : List Char :=
  if c == delimiter || c == '\\' then ['\\', c]
  else if isPrintable c then [c]
  else match shortEscape? c with
    | some letter => ['\\', letter]
    | none =>
      if c.toNat < 0x80 then '\\' :: 'x' :: hexDigits 2 c.toNat
      else if c.toNat < 0x10000 then '\\' :: 'u' :: hexDigits 4 c.toNat
      else '\\' :: 'U' :: hexDigits 8 c.toNat

/-- One glyph between delimiters. -/
def quoteGlyph (delimiter : Char) : Glyph → List Char
  | .char c => quoteChar delimiter c
  | .stray b => '\\' :: 'x' :: hexDigits 2 b.toNat

/-- The characters `cs` between two delimiters. -/
def quoteChars (delimiter : Char) (cs : List Char) : List Char :=
  delimiter :: (cs.flatMap (quoteChar delimiter) ++ [delimiter])

/-- The text in double quotes. -/
def quote (s : String) : String := String.ofList (quoteChars '"' s.toList)

/-- The character in single quotes. -/
def quoteOne (c : Char) : String := String.ofList (quoteChars '\'' [c])

end Easel.Text
