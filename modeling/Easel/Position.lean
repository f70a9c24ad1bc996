/-!
# Places in a source text

Lines and columns count from one, columns in characters. A `Cursor` also carries the number of
characters passed; line 0 marks a place that no source text has.
-/

namespace Easel

/-- A line and a column. -/
structure Position where
  line : Nat := 0
  column : Nat := 0
  deriving DecidableEq, Repr, Inhabited

/-- A place reached by reading a text from its start. -/
structure Cursor where
  position : Position
  offset : Nat
  deriving DecidableEq, Repr

namespace Cursor

/-- The place before the first character. -/
def start : Cursor := ⟨⟨1, 1⟩, 0⟩

/-- The place after one more character: a line feed starts the next line. -/
def step (k : Cursor) (c : Char) : Cursor :=
  if c = '\n' then ⟨⟨k.position.line + 1, 1⟩, k.offset + 1⟩
  else ⟨⟨k.position.line, k.position.column + 1⟩, k.offset + 1⟩

/-- The place after the characters `cs`. -/
def advance (k : Cursor) (cs : List Char) : Cursor := cs.foldl step k

end Cursor

end Easel
