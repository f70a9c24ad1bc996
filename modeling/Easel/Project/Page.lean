import Easel.Project.Config

/-!
# Pages

A page is the HTML document that shows a compiled program: a canvas and a script. Texts are escaped
for the place they stand in.
-/

namespace Easel

/-- The HTML document around a script. -/
structure Page where
  title : RawText
  canvasId : String
  width : Int
  height : Int
  background : String
  script : RawText
  deriving DecidableEq, Repr

namespace Page

/-- The page of a project for a script. -/
def ofConfig (c : Config) (title script : RawText) : Page where
  title := title
  canvasId := if c.canvas.id.isEmpty then Script.defaultCanvas else c.canvas.id.text
  width := c.canvas.width
  height := c.canvas.height
  background := c.canvas.background.text
  script := script

/-! ## Escaping -/

/-- A character as HTML text. -/
def escapeChar (c : Char) : List Char :=
  if c = '&' then "&amp;".toList
  else if c = '<' then "&lt;".toList
  else if c = '>' then "&gt;".toList
  else if c = '"' then "&#34;".toList
  else if c = '\'' then "&#39;".toList
  else if c = '+' then "&#43;".toList
  else if c = '\x00' then ['�']
  else [c]

/-- A glyph as HTML text. -/
def escapeGlyph : Text.Glyph → List Text.Glyph
  | .char c => (escapeChar c).map .char
  | .stray b => [.stray b]

/-- A text as HTML. -/
def escape (s : RawText) : RawText := ⟨s.glyphs.flatMap escapeGlyph⟩

/-- Whether a character stands for itself in an address. -/
def isPlain (c : Char) : Bool := c.isAlphanum || "-._~!#$&*+,/:;=?@[]".toList.contains c

/-- A byte in percent form. -/
def percent (b : UInt8) : List Char := '%' :: Text.hexDigits 2 b.toNat

/-- A glyph in an address. -/
def addressGlyph (g : Text.Glyph) : List Char :=
  match g with
  | .char c => if isPlain c then [c] else g.bytes.flatMap percent
  | .stray b => percent b

/-- Whether a glyph is a hexadecimal digit. -/
def isHexGlyph : Text.Glyph → Bool
  | .char c => (Text.hexValue? c).isSome
  | .stray _ => false

/-- Whether a text starts with two hexadecimal digits. -/
def startsWithHexPair : List Text.Glyph → Bool
  | a :: b :: _ => isHexGlyph a && isHexGlyph b
  | _ => false

/-- The characters of an address; what is in percent form already stays. -/
def addressChars : List Text.Glyph → List Char
  | [] => []
  | g :: rest =>
    (if g = .char '%' ∧ startsWithHexPair rest then ['%'] else addressGlyph g) ++ addressChars rest

/-- A letter without its case, as far as it matters to the names of schemes. -/
def foldCase (c : Char) : Char := if c = 'ſ' then 's' else c.toLower

/-- Whether an address has no scheme, or one that runs no code. -/
def isSafe (s : List Char) : Bool :=
  let scheme := s.takeWhile (· != ':')
  scheme.length == s.length || scheme.contains '/' ||
    ["http", "https", "mailto"].contains (String.ofList (scheme.map foldCase))

/-- An address; one with another scheme is not written. -/
def address (s : RawText) : String :=
  if isSafe s.text.toList then String.ofList (addressChars s.glyphs) else "#ZgotmplZ"

/-! ## The document -/

/-- The HTML text of a page. -/
def print (p : Page) : RawText :=
  "<!DOCTYPE html>\n<html lang=\"en\">\n<head>\n<meta charset=\"utf-8\">\n<title>" ++
    escape p.title ++ "</title>\n<style>\n" ++
    "  html, body { margin: 0; height: 100%; background: #111; }\n" ++
    "  body { display: flex; align-items: center; justify-content: center; }\n" ++
    r"  canvas { background: " ++ p.background ++ r"; }" ++
    "\n</style>\n</head>\n<body>\n<canvas id=\"" ++ escape p.canvasId ++ "\" width=\"" ++
    toString p.width ++ "\" height=\"" ++ toString p.height ++ "\"></canvas>\n<script src=\"" ++
    escape (address p.script) ++ "\"></script>\n</body>\n</html>\n"

end Page

end Easel
