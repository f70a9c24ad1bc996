import Easel.Text.Quoted

/-!
# Raw text

A text in which bytes may stand that are part of no character. Names of files and the strings of
documents are such texts. They are kept as they are, so that what is written back and what is quoted
tells a byte that cannot be decoded from a replacement character.
-/

namespace Easel

/-- A text of characters and of bytes that are part of none. -/
structure RawText where
  glyphs : List Text.Glyph
  deriving DecidableEq, Repr, Inhabited

namespace RawText

/-- A text in which every byte is part of a character. -/
def ofString (s : String) : RawText := ⟨s.toList.map .char⟩

instance : Coe String RawText := ⟨ofString⟩

/-- The text that bytes spell. -/
def ofBytes (bytes : List UInt8) : RawText := ⟨Text.glyphs bytes⟩

/-- The bytes of a text. -/
def bytes (r : RawText) : List UInt8 := r.glyphs.flatMap Text.Glyph.bytes

/-- The number of bytes of a text. -/
def size (r : RawText) : Nat := r.bytes.length

/-- The content of a file that holds a text. -/
def data (r : RawText) : ByteArray := ⟨r.bytes.toArray⟩

/-- The text as it is shown, with a replacement character for each byte that cannot be decoded. -/
def text (r : RawText) : String := String.ofList (r.glyphs.map Text.Glyph.toChar)

instance : ToString RawText := ⟨text⟩

def isEmpty (r : RawText) : Bool := r.glyphs.isEmpty

instance : Append RawText := ⟨fun a b => ⟨a.glyphs ++ b.glyphs⟩⟩

/-- Whether one text comes before another or is the same; the order is that of their bytes. -/
def precedes (a b : RawText) : Bool := a.bytes ≤ b.bytes

/-- The text in double quotes. -/
def quote (r : RawText) : String :=
  String.ofList ('"' :: (r.glyphs.flatMap (Text.quoteGlyph '"') ++ ['"']))

/-- Whether a glyph is white space. -/
def isBlank : Text.Glyph → Bool
  | .char c => Text.isBlank c
  | .stray _ => false

/-- The text without the blanks at either end. -/
def trim (r : RawText) : RawText :=
  ⟨((r.glyphs.dropWhile isBlank).reverse.dropWhile isBlank).reverse⟩

end RawText

end Easel
