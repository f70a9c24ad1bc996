/-!
# Reserved words and operators

The words the language reserves, in three families (keywords, shapes and animation commands), and
its binary operators with their binding strength. Every word and operator has one spelling.
-/

namespace Easel

/-- The reserved words that are neither a shape nor an animation command. -/
inductive Keyword where
  | letKw | fnKw | returnKw | ifKw | elseKw | repeatKw | whileKw | forKw
  | animateKw | sceneKw | importKw | trueKw | falseKw | nullKw
  deriving DecidableEq, Repr

/-- The words that begin a shape. -/
inductive ShapeKind where
  | circle | rect | line | triangle | polygon | ellipse | arc | text
  deriving DecidableEq, Repr

/-- The words that begin a command of an `animate` block. -/
inductive CommandKind where
  | move | rotate | scale | fade | bounce | wave | orbit | pulse | wobble | spring
  deriving DecidableEq, Repr

/-- The binary operators. -/
inductive BinaryOp where
  | add | sub | mul | div | mod | eq | ne | lt | le | gt | ge
  deriving DecidableEq, Repr

/-- How strongly an operator binds, from the weakest. -/
inductive Level where
  | comparison | additive | multiplicative
  deriving DecidableEq, Repr

namespace Keyword

/-- Every keyword, in the order of their code numbers. -/
def all : List Keyword :=
  [letKw, fnKw, returnKw, ifKw, elseKw, repeatKw, whileKw, forKw, animateKw, sceneKw, importKw,
    trueKw, falseKw, nullKw]

def spelling : Keyword → String
  | letKw => "let"
  | fnKw => "fn"
  | returnKw => "return"
  | ifKw => "if"
  | elseKw => "else"
  | repeatKw => "repeat"
  | whileKw => "while"
  | forKw => "for"
  | animateKw => "animate"
  | sceneKw => "scene"
  | importKw => "import"
  | trueKw => "true"
  | falseKw => "false"
  | nullKw => "null"

/-- The keywords at which a statement begins. -/
def startsStatement : Keyword → Bool
  | letKw | fnKw | returnKw | ifKw | repeatKw | whileKw | forKw | animateKw | sceneKw
  | importKw => true
  | elseKw | trueKw | falseKw | nullKw => false

end Keyword

namespace ShapeKind

/-- Every shape, in the order of their code numbers. -/
def all : List ShapeKind := [circle, rect, line, triangle, polygon, ellipse, arc, text]

def spelling : ShapeKind → String
  | circle => "circle"
  | rect => "rect"
  | line => "line"
  | triangle => "triangle"
  | polygon => "polygon"
  | ellipse => "ellipse"
  | arc => "arc"
  | text => "text"

end ShapeKind

namespace CommandKind

/-- Every animation command, in the order of their code numbers. -/
def all : List CommandKind :=
  [move, rotate, scale, fade, bounce, wave, orbit, pulse, wobble, spring]

def spelling : CommandKind → String
  | move => "move"
  | rotate => "rotate"
  | scale => "scale"
  | fade => "fade"
  | bounce => "bounce"
  | wave => "wave"
  | orbit => "orbit"
  | pulse => "pulse"
  | wobble => "wobble"
  | spring => "spring"

end CommandKind

namespace BinaryOp

def spelling : BinaryOp → String
  | add => "+"
  | sub => "-"
  | mul => "*"
  | div => "/"
  | mod => "%"
  | eq => "=="
  | ne => "!="
  | lt => "<"
  | le => "<="
  | gt => ">"
  | ge => ">="

def level : BinaryOp → Level
  | add | sub => .additive
  | mul | div | mod => .multiplicative
  | eq | ne | lt | le | gt | ge => .comparison

end BinaryOp

end Easel
