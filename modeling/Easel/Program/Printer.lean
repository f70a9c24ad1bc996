import Easel.Numeral.Layout
import Easel.Program.Basic
import Easel.Text.Quoted

/-!
# Printed programs

One line of text for every program, which shows its structure: an operation stands in parentheses,
and a statement is named before its parts.
-/

namespace Easel

/-- The texts with a separator between them. -/
def separated (separator : String) (parts : List String) : String :=
  String.intercalate separator parts

mutual

/-- The expression as text. -/
def Expr.print : Expr → String
  | .ident id => id.name
  | .number _ value => value.text
  | .string _ value => Text.quote value
  | .color _ value => value
  | .bool _ true => "true"
  | .bool _ false => "false"
  | .null _ => "null"
  | .array _ elements => "[" ++ separated ", " (Expr.printAll elements) ++ "]"
  | .object _ properties => r"{" ++ separated ", " (Expr.printProperties properties) ++ r"}"
  | .negate _ operand => "(-" ++ operand.print ++ ")"
  | .binary _ op left right => "(" ++ left.print ++ " " ++ op.spelling ++ " " ++ right.print ++ ")"
  | .assign target value => "(" ++ target.print ++ " = " ++ value.print ++ ")"
  | .call callee args => callee.print ++ "(" ++ separated ", " (Expr.printAll args) ++ ")"
  | .member base property => base.print ++ "." ++ property.name
  | .index base key => base.print ++ "[" ++ key.print ++ "]"
  | .shape _ s => s.print

/-- Each expression as text. -/
def Expr.printAll : List Expr → List String
  | [] => []
  | e :: rest => e.print :: Expr.printAll rest

/-- Each property as text. -/
def Expr.printProperties : List (String × Expr) → List String
  | [] => []
  | (key, value) :: rest => (key ++ ": " ++ value.print) :: Expr.printProperties rest

/-- An optional field with the word that introduces it. -/
def Expr.printField (word : String) : Option Expr → String
  | none => ""
  | some e => " " ++ word ++ " " ++ e.print

/-- The shape as text. -/
def Shape.print : Shape → String
  | .circle x y size color =>
    "Circle(at (" ++ x.print ++ ", " ++ y.print ++ ") size " ++ size.print ++
      " color " ++ color.print ++ ")"
  | .rect x y width height color =>
    "Rect(at (" ++ x.print ++ ", " ++ y.print ++ ") width " ++ width.print ++
      " height " ++ height.print ++ " color " ++ color.print ++ ")"
  | .line x₁ y₁ x₂ y₂ color =>
    "Line((" ++ x₁.print ++ ", " ++ y₁.print ++ ") (" ++ x₂.print ++ ", " ++ y₂.print ++
      ") color " ++ color.print ++ ")"
  | .triangle x₁ y₁ x₂ y₂ x₃ y₃ color =>
    "Triangle((" ++ x₁.print ++ ", " ++ y₁.print ++ ") (" ++ x₂.print ++ ", " ++ y₂.print ++
      ") (" ++ x₃.print ++ ", " ++ y₃.print ++ ") color " ++ color.print ++ ")"
  | .polygon x y sides radius color rotation =>
    "Polygon(at (" ++ x.print ++ ", " ++ y.print ++ ") sides " ++ sides.print ++
      " radius " ++ radius.print ++ " color " ++ color.print ++
      Expr.printField "rotate" rotation ++ ")"
  | .ellipse x y radiusX radiusY color rotation =>
    "Ellipse(at (" ++ x.print ++ ", " ++ y.print ++ ") " ++ radiusX.print ++ " " ++
      radiusY.print ++ " color " ++ color.print ++ Expr.printField "rotate" rotation ++ ")"
  | .arc x y radius startAngle endAngle color _ =>
    "Arc(at (" ++ x.print ++ ", " ++ y.print ++ ") radius " ++ radius.print ++
      " startAngle " ++ startAngle.print ++ " endAngle " ++ endAngle.print ++
      " color " ++ color.print ++ ")"
  | .text x y content color font size _ =>
    "Text(at (" ++ x.print ++ ", " ++ y.print ++ ") " ++ content.print ++
      " color " ++ color.print ++
      (match font with
        | some (_, name) => " font " ++ Text.quote name
        | none => "") ++
      Expr.printField "size" size ++ ")"

end

/-- The arguments of a command that are present, with blanks between them. -/
def Motion.printArgs (args : List (Option Expr)) : String :=
  separated " " (args.filterMap fun arg => arg.map Expr.print)

/-- The command as text. -/
def Motion.print : Motion → String
  | .move amount direction => "move " ++ amount.print ++ " " ++ direction.spelling
  | .rotate angle => "rotate " ++ angle.print
  | .scale factor => "scale " ++ factor.print
  | .fade amount => "fade " ++ amount.print
  | .bounce none => "bounce"
  | .bounce (some height) => "bounce " ++ height.print
  | .wave amplitude frequency => "wave " ++ amplitude.print ++ " " ++ frequency.print
  | .orbit centerX centerY radius speed =>
    "orbit " ++ centerX.print ++ " " ++ centerY.print ++ " " ++ radius.print ++ " " ++ speed.print
  | .pulse minScale maxScale speed => "pulse " ++ printArgs [some minScale, some maxScale, speed]
  | .wobble amount speed => "wobble " ++ printArgs [some amount, speed]
  | .spring targetX targetY stiffness damping =>
    "spring " ++ printArgs [some targetX, some targetY, stiffness, damping]

/-- The binding as text. -/
def Binding.print (b : Binding) : String :=
  "LetStmt(" ++ b.name.name ++ " = " ++ b.value.print ++ ")"

/-- The first clause of a loop as text. -/
def Init.print : Init → String
  | .binding b => b.print
  | .expr e => "ExprStmt(" ++ e.print ++ ")"

/-- Statement texts between brackets. -/
def bracketed (parts : List String) : String := "[" ++ separated "; " parts ++ "]"

mutual

/-- The statement as text. -/
def Stmt.print : Stmt → String
  | .binding b => b.print
  | .function _ name params body =>
    "FunctionDecl(" ++ name.name ++ "(" ++ separated ", " (params.map Ident.name) ++ ") " ++
      bracketed (Stmt.printAll body) ++ ")"
  | .ret _ none => "ReturnStmt()"
  | .ret _ (some value) => "ReturnStmt(" ++ value.print ++ ")"
  | .ifThen _ cond body =>
    "IfStmt(if " ++ cond.print ++ " then " ++ bracketed (Stmt.printAll body) ++ ")"
  | .ifElse _ cond body alternative =>
    "IfStmt(if " ++ cond.print ++ " then " ++ bracketed (Stmt.printAll body) ++
      " else " ++ bracketed (Stmt.printAll alternative) ++ ")"
  | .repeatLoop _ times body =>
    "RepeatStmt(" ++ times.print ++ " " ++ bracketed (Stmt.printAll body) ++ ")"
  | .whileLoop _ cond body =>
    "WhileStmt(while " ++ cond.print ++ " do " ++ bracketed (Stmt.printAll body) ++ ")"
  | .forLoop _ init cond update body =>
    "ForStmt(init=" ++ (init.map Init.print).getD "nil" ++ ", cond=" ++ cond.print ++
      ", update=" ++ (update.map Expr.print).getD "nil" ++
      ", body=" ++ bracketed (Stmt.printAll body) ++ ")"
  | .importFrom _ [] path => "ImportStmt(" ++ Text.quote path ++ ")"
  | .importFrom _ names path =>
    "ImportStmt(" ++ separated ", " (names.map Ident.name) ++ " from " ++ Text.quote path ++ ")"
  | .scene _ name body => "SceneBlock(" ++ name ++ " " ++ bracketed (Stmt.printAll body) ++ ")"
  | .animate _ commands =>
    "AnimateBlock" ++ bracketed (commands.map fun c => c.motion.print)
  | .expr e => "ExprStmt(" ++ e.print ++ ")"

/-- Each statement as text. -/
def Stmt.printAll : List Stmt → List String
  | [] => []
  | s :: rest => s.print :: Stmt.printAll rest

end

/-- The program as text. -/
def Program.print (p : Program) : String := "Program" ++ bracketed (Stmt.printAll p)

end Easel
