import Easel.Numeral.Basic
import Easel.Position
import Easel.Vocabulary

/-!
# Programs

The abstract syntax of the language: expressions with their shape literals, animation commands, and
statements. A node keeps the position it was read from, unless that is the position of its first
part.
-/

namespace Easel

/-- A name with its place. -/
structure Ident where
  position : Position
  name : String
  deriving DecidableEq, Repr

mutual

/-- Expressions. -/
inductive Expr where
  | ident (id : Ident)
  | number (position : Position) (value : Numeral)
  | string (position : Position) (value : String)
  /-- A color such as `#ff0000`, with its hash sign. -/
  | color (position : Position) (value : String)
  | bool (position : Position) (value : Bool)
  | null (position : Position)
  | array (position : Position) (elements : List Expr)
  | object (position : Position) (properties : List (String × Expr))
  | negate (position : Position) (operand : Expr)
  /-- The position is that of the operator. -/
  | binary (position : Position) (op : BinaryOp) (left right : Expr)
  | assign (target value : Expr)
  | call (callee : Expr) (args : List Expr)
  | member (object : Expr) (property : Ident)
  | index (object index : Expr)
  | shape (position : Position) (shape : Shape)

/-- Shape literals. A point is given by its two coordinates. -/
inductive Shape where
  | circle (x y size color : Expr)
  | rect (x y width height color : Expr)
  | line (x₁ y₁ x₂ y₂ color : Expr)
  | triangle (x₁ y₁ x₂ y₂ x₃ y₃ color : Expr)
  | polygon (x y sides radius color : Expr) (rotation : Option Expr)
  | ellipse (x y radiusX radiusY color : Expr) (rotation : Option Expr)
  | arc (x y radius startAngle endAngle color : Expr) (counterclockwise : Bool)
  /-- A font is a string literal with its position. An empty alignment is none. -/
  | text (x y content color : Expr) (font : Option (Position × String)) (size : Option Expr)
      (align : String)

end

/-- The direction of a `move`. -/
inductive Direction where
  | up | down | left | right
  deriving DecidableEq, Repr

/-- What an animation command does. -/
inductive Motion where
  | move (amount : Expr) (direction : Direction)
  | rotate (angle : Expr)
  | scale (factor : Expr)
  | fade (amount : Expr)
  | bounce (height : Option Expr)
  | wave (amplitude frequency : Expr)
  | orbit (centerX centerY radius speed : Expr)
  | pulse (minScale maxScale : Expr) (speed : Option Expr)
  | wobble (amount : Expr) (speed : Option Expr)
  | spring (targetX targetY : Expr) (stiffness damping : Option Expr)

/-- An animation command. -/
structure Command where
  position : Position
  motion : Motion

/-- `let name = value`. -/
structure Binding where
  position : Position
  name : Ident
  value : Expr

/-- The first clause of a `for` loop. -/
inductive Init where
  | binding (b : Binding)
  | expr (e : Expr)

/-- Statements. -/
inductive Stmt where
  | binding (b : Binding)
  | function (position : Position) (name : Ident) (params : List Ident) (body : List Stmt)
  | ret (position : Position) (value : Option Expr)
  | ifThen (position : Position) (cond : Expr) (body : List Stmt)
  | ifElse (position : Position) (cond : Expr) (body alternative : List Stmt)
  | repeatLoop (position : Position) (times : Expr) (body : List Stmt)
  | whileLoop (position : Position) (cond : Expr) (body : List Stmt)
  | forLoop (position : Position) (init : Option Init) (cond : Expr) (update : Option Expr)
      (body : List Stmt)
  /-- An import without names brings in everything. -/
  | importFrom (position : Position) (names : List Ident) (path : String)
  | scene (position : Position) (name : String) (body : List Stmt)
  | animate (position : Position) (commands : List Command)
  | expr (e : Expr)

/-- A program is a sequence of statements. -/
abbrev Program := List Stmt

namespace Expr

/-- The place of an expression: a call, an access or an assignment stands where its first part
does. -/
def position : Expr → Position
  | ident id => id.position
  | number p _ | string p _ | color p _ | bool p _ | null p | array p _ | object p _
  | negate p _ | binary p _ _ _ | shape p _ => p
  | assign first _ | call first _ | member first _ | index first _ => first.position

/-- Whether a value can be assigned to the expression. -/
def isTarget : Expr → Bool
  | ident _ | member _ _ | index _ _ => true
  | _ => false

end Expr

namespace Stmt

/-- The place of a statement. -/
def position : Stmt → Position
  | binding b => b.position
  | function p _ _ _ | ret p _ | ifThen p _ _ | ifElse p _ _ _ | repeatLoop p _ _
  | whileLoop p _ _ | forLoop p _ _ _ _ | importFrom p _ _ | scene p _ _ | animate p _ => p
  | expr e => e.position

end Stmt

namespace Direction

/-- Every direction. -/
def all : List Direction := [up, down, left, right]

def spelling : Direction → String
  | up => "up"
  | down => "down"
  | left => "left"
  | right => "right"

/-- The direction with a given spelling. -/
def ofSpelling? (word : String) : Option Direction := all.find? (fun d => d.spelling == word)

end Direction

end Easel
