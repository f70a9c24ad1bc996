import Easel.Text.Raw

/-!
# Writing JSON

JSON values as the program writes them. Strings escape the characters that would end them, control
characters, and the characters that have a meaning in HTML or end a line of a script. A byte that
is part of no character is written as the escape of the replacement character.
-/

namespace Easel.Json

/-- A JSON value; the members of an object keep their order. -/
inductive Value where
  | null
  | bool (b : Bool)
  | int (n : Int)
  | string (s : RawText)
  | array (items : List Value)
  | object (members : List (String × Value))

/-- One character of a string. -/
def escapeChar (c : Char) : List Char :=
  if c = '"' then ['\\', '"']
  else if c = '\\' then ['\\', '\\']
  else if c = '\n' then ['\\', 'n']
  else if c = '\r' then ['\\', 'r']
  else if c = '\t' then ['\\', 't']
  else if c.toNat < 0x20 ∨ c = '<' ∨ c = '>' ∨ c = '&' ∨ c.toNat = 0x2028 ∨ c.toNat = 0x2029 then
    '\\' :: 'u' :: Text.hexDigits 4 c.toNat
  else [c]

/-- One glyph of a string. -/
def escapeGlyph : Text.Glyph → List Char
  | .char c => escapeChar c
  | .stray _ => '\\' :: 'u' :: Text.hexDigits 4 Text.replacement.toNat

/-- A string in quotes. -/
def quoted (s : RawText) : String :=
  String.ofList ('"' :: (s.glyphs.flatMap escapeGlyph ++ ['"']))

/-- The members of a collection between brackets, on one line. -/
def enclose (opening closing : String) (parts : List String) : String :=
  opening ++ String.intercalate "," parts ++ closing

mutual

/-- The value on one line without blanks. -/
def Value.compact : Value → String
  | .null => "null"
  | .bool b => if b then "true" else "false"
  | .int n => toString n
  | .string s => quoted s
  | .array items => enclose "[" "]" (Value.compactItems items)
  | .object members => enclose r"{" r"}" (Value.compactMembers members)

def Value.compactItems : List Value → List String
  | [] => []
  | v :: rest => v.compact :: Value.compactItems rest

def Value.compactMembers : List (String × Value) → List String
  | [] => []
  | (key, v) :: rest => (quoted key ++ ":" ++ v.compact) :: Value.compactMembers rest

end

/-- The start of a line at a depth. -/
def newLine (depth : Nat) : String := "\n" ++ String.ofList (List.replicate (2 * depth) ' ')

/-- The members of a collection between brackets, each on a line of its own. -/
def encloseLines (depth : Nat) (opening closing : String) (parts : List String) : String :=
  if parts.isEmpty then opening ++ closing
  else
    opening ++ String.intercalate "," (parts.map fun p => newLine (depth + 1) ++ p) ++
      newLine depth ++ closing

mutual

/-- The value over several lines, each level indented by two blanks more. -/
def Value.pretty (depth : Nat) : Value → String
  | .null => "null"
  | .bool b => if b then "true" else "false"
  | .int n => toString n
  | .string s => quoted s
  | .array items => encloseLines depth "[" "]" (Value.prettyItems (depth + 1) items)
  | .object members =>
    encloseLines depth r"{" r"}" (Value.prettyMembers (depth + 1) members)

def Value.prettyItems (depth : Nat) : List Value → List String
  | [] => []
  | v :: rest => v.pretty depth :: Value.prettyItems depth rest

def Value.prettyMembers (depth : Nat) : List (String × Value) → List String
  | [] => []
  | (key, v) :: rest =>
    (quoted key ++ ": " ++ v.pretty depth) :: Value.prettyMembers depth rest

end

end Easel.Json
