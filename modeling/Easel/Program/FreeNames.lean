import Easel.Program.Basic

/-!
# Free names

The names that expressions read, each once. A property name is not read.
-/

namespace Easel

mutual

/-- The names seen so far and those of an expression. -/
def Expr.collect (seen : List String) : Expr → List String
  | .ident id => seen.insert id.name
  | .number _ _ | .string _ _ | .color _ _ | .bool _ _ | .null _ => seen
  | .array _ elements => Expr.collectAll seen elements
  | .object _ properties => Expr.collectProperties seen properties
  | .negate _ operand => operand.collect seen
  | .binary _ _ left right => right.collect (left.collect seen)
  | .assign target value => value.collect (target.collect seen)
  | .call callee args => Expr.collectAll (callee.collect seen) args
  | .member base _ => base.collect seen
  | .index base key => key.collect (base.collect seen)
  | .shape _ s => s.collect seen

/-- The names seen so far and those of several expressions. -/
def Expr.collectAll (seen : List String) : List Expr → List String
  | [] => seen
  | e :: rest => Expr.collectAll (e.collect seen) rest

/-- The names seen so far and those of the values of properties. -/
def Expr.collectProperties (seen : List String) : List (String × Expr) → List String
  | [] => seen
  | (_, value) :: rest => Expr.collectProperties (value.collect seen) rest

/-- The names seen so far and those of an optional expression. -/
def Expr.collectOptional (seen : List String) : Option Expr → List String
  | none => seen
  | some e => e.collect seen

/-- The names seen so far and those of the fields of a shape. -/
def Shape.collect (seen : List String) : Shape → List String
  | .circle x y size color => color.collect (size.collect (y.collect (x.collect seen)))
  | .rect x y width height color =>
    color.collect (height.collect (width.collect (y.collect (x.collect seen))))
  | .line x₁ y₁ x₂ y₂ color =>
    color.collect (y₂.collect (x₂.collect (y₁.collect (x₁.collect seen))))
  | .triangle x₁ y₁ x₂ y₂ x₃ y₃ color =>
    color.collect (y₃.collect (x₃.collect (y₂.collect (x₂.collect (y₁.collect (x₁.collect seen))))))
  | .polygon x y sides radius color rotation =>
    Expr.collectOptional
      (color.collect (radius.collect (sides.collect (y.collect (x.collect seen))))) rotation
  | .ellipse x y radiusX radiusY color rotation =>
    Expr.collectOptional
      (color.collect (radiusY.collect (radiusX.collect (y.collect (x.collect seen))))) rotation
  | .arc x y radius startAngle endAngle color _ =>
    color.collect
      (endAngle.collect (startAngle.collect (radius.collect (y.collect (x.collect seen)))))
  | .text x y content color _ size _ =>
    Expr.collectOptional (color.collect (content.collect (y.collect (x.collect seen)))) size

end

/-- The names that expressions read. -/
def freeNames (es : List Expr) : List String := Expr.collectAll [] es

end Easel
