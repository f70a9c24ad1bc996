import Easel.Position

/-!
# Symbols

A symbol is a declared name with its role and the place of its declaration. The builtin names need
no declaration: a script finds them in its prelude or in the browser it runs in.
-/

namespace Easel

/-- The role of a name. -/
inductive SymbolKind where
  | builtin | var | function | parameter | imported
  deriving DecidableEq, Repr

/-- A declared name. -/
structure Symbol where
  name : String
  kind : SymbolKind
  line : Int := 0
  column : Int := 0
  deriving DecidableEq, Repr

namespace SymbolKind

def name : SymbolKind → String
  | builtin => "builtin"
  | var => "variable"
  | function => "function"
  | parameter => "parameter"
  | imported => "import"

/-- The role with a given code number. -/
def ofCode (n : Int) : SymbolKind :=
  if n = 1 then var else if n = 2 then function else if n = 3 then parameter
  else if n = 4 then imported else builtin

end SymbolKind

/-- The names a program may use without declaring them. -/
def builtinNames : List String := [
  "sin", "cos", "tan", "sqrt", "pow", "abs", "floor", "ceil", "round",
  "min", "max", "random", "noise", "PI", "TWO_PI", "HALF_PI",
  "mouseX", "mouseY", "time", "frameCount",
  "lerp", "map", "constrain", "dist", "radians", "degrees",
  "rgb", "rgba", "hsl", "hsla",
  "ctx", "canvas", "animationState", "clear", "resetTransform", "applyTransform",
  "console", "Math", "String", "Number", "Array", "Object", "JSON", "window", "document"]

/-- Whether a name needs no declaration. -/
def isBuiltin (name : String) : Bool := builtinNames.contains name

end Easel
