/-!
# Decoding bytes

A file is a sequence of bytes. It is read as UTF-8: a byte that is not part of a well-formed
sequence is a glyph of its own, and the text shows it as one replacement character, so every file
has a text.
-/

namespace Easel.Text

/-- The character that stands for an undecodable byte. -/
def replacement : Char := Char.ofNat 0xfffd

/-- The low six bits of a continuation byte. -/
def tailBits? (b : UInt8) : Option Nat :=
  if 0x80 ≤ b ∧ b ≤ 0xbf then some (b.toNat - 0x80) else none

/-- The character whose encoding starts with the non-ASCII byte `b`, and the number of continuation
bytes it takes. Overlong forms, surrogates and code points above U+10FFFF have no character. -/
def decodeLong (b : UInt8) (rest : List UInt8) : Option (Char × Nat) :=
  let accept (least n taken : Nat) : Option (Char × Nat) :=
    if least ≤ n ∧ n.isValidChar then some (Char.ofNat n, taken) else none
  if 0xc2 ≤ b ∧ b ≤ 0xdf then
    match rest with
    | b₁ :: _ => do
      let t₁ ← tailBits? b₁
      accept 0x80 ((b.toNat - 0xc0) * 64 + t₁) 1
    | _ => none
  else if 0xe0 ≤ b ∧ b ≤ 0xef then
    match rest with
    | b₁ :: b₂ :: _ => do
      let t₁ ← tailBits? b₁
      let t₂ ← tailBits? b₂
      accept 0x800 (((b.toNat - 0xe0) * 64 + t₁) * 64 + t₂) 2
    | _ => none
  else if 0xf0 ≤ b ∧ b ≤ 0xf4 then
    match rest with
    | b₁ :: b₂ :: b₃ :: _ => do
      let t₁ ← tailBits? b₁
      let t₂ ← tailBits? b₂
      let t₃ ← tailBits? b₃
      accept 0x10000 ((((b.toNat - 0xf0) * 64 + t₁) * 64 + t₂) * 64 + t₃) 3
    | _ => none
  else none

/-- What a text is made of: characters, and bytes that are part of none. -/
inductive Glyph where
  | char (c : Char)
  | stray (b : UInt8)
  deriving DecidableEq, Repr

/-- The character that shows a glyph. -/
def Glyph.toChar : Glyph → Char
  | .char c => c
  | .stray _ => replacement

/-- The bytes of a glyph. -/
def Glyph.bytes : Glyph → List UInt8
  | .char c => String.utf8EncodeChar c
  | .stray b => [b]

/-- The glyphs of a byte sequence of which the first `skip` bytes are already read. -/
def glyphsFrom : Nat → List UInt8 → List Glyph
  | _, [] => []
  | skip + 1, _ :: rest => glyphsFrom skip rest
  | 0, b :: rest =>
    if b < 0x80 then .char (Char.ofNat b.toNat) :: glyphsFrom 0 rest
    else match decodeLong b rest with
      | some (c, taken) => .char c :: glyphsFrom taken rest
      | none => .stray b :: glyphsFrom 0 rest

/-- The glyphs of a byte sequence. -/
def glyphs (bytes : List UInt8) : List Glyph := glyphsFrom 0 bytes

/-- The text of a file, with undecodable bytes replaced one by one. -/
def decode (bytes : ByteArray) : String :=
  String.ofList ((glyphs bytes.toList).map Glyph.toChar)

/-- Whether every byte belongs to a well-formed sequence. -/
def isUtf8 (bytes : ByteArray) : Bool := (decode bytes).toUTF8 == bytes

end Easel.Text
