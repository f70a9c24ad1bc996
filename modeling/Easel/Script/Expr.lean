import Easel.Program.FreeNames
import Easel.Script.Prelude
import Easel.Text.Quoted

/-!
# Expressions in scripts

An operation is written in parentheses. A shape becomes a function that is called at once: it puts
the fields of the shape into constants of its own and draws. A field may read a name that the
function declares too; such a name is captured, which means that it comes in as a parameter whose
name has a dollar sign at its end, and the fields use that parameter.
-/

namespace Easel

/-- The names of the constants that the function of a shape may declare, in order. -/
def drawingLocals : List String := [
  "color", "endAngle", "fontSize", "h", "radius", "radiusX", "radiusY", "rotation", "sides",
  "size", "startAngle", "text", "w", "x", "y"]

/-- The fields a shape is drawn from: all but the rotation of an ellipse. -/
def Shape.fields : Shape → List Expr
  | .circle x y size color => [x, y, size, color]
  | .rect x y width height color => [x, y, width, height, color]
  | .line x₁ y₁ x₂ y₂ color => [x₁, y₁, x₂, y₂, color]
  | .triangle x₁ y₁ x₂ y₂ x₃ y₃ color => [x₁, y₁, x₂, y₂, x₃, y₃, color]
  | .polygon x y sides radius color rotation => [x, y, sides, radius, color] ++ rotation.toList
  | .ellipse x y radiusX radiusY color _ => [x, y, radiusX, radiusY, color]
  | .arc x y radius startAngle endAngle color _ => [x, y, radius, startAngle, endAngle, color]
  | .text x y content color _ size _ => [x, y, content, color] ++ size.toList

/-- The names that the function of a shape captures, in order. -/
def Shape.captured (s : Shape) : List String := drawingLocals.filter (freeNames s.fields).contains

/-- The parameter of a captured name. -/
def captureName (n : String) : String := n ++ "$"

/-- How a name is spelled where the names `captured` are. -/
def spell (captured : List String) (n : String) : String :=
  if captured.contains n then captureName n else n

/-- Whether an expression starts with a minus sign. -/
def Expr.isNegation : Expr → Bool
  | .negate _ _ => true
  | _ => false

namespace Script

/-- A name of the program. -/
def reading (captured : List String) (n : String) : Script := use n (spell captured n)

/-- A script between two texts. -/
def between (opening closing : String) (s : Script) : Script := code opening ++ s ++ code closing

/-- A constant of the pattern, with what follows its value. -/
def constant (name : String) (value : Script) (after : String) : Script :=
  code "const " ++ bind name .pattern ++ code " = " ++ value ++ code after ++ lineEnd

/-- A step of a path to a point. -/
def pathTo (step : String) (x y : Script) : Script :=
  code ("ctx." ++ step ++ "(") ++ x ++ code ", " ++ y ++ code ");" ++ lineEnd

/-- Lines of code. -/
def codeLines (texts : List String) : Script := texts.flatMap line

/-- A drawing function that is called at once with the names it captures. -/
def drawing (outer names : List String) (body : Script) : Script :=
  inScope (code "(function(" ++
    commaSeparated (names.map fun n => bind (captureName n) .pattern) ++ code r") {" ++ lineEnd ++
    indented (line "ctx.save();" ++ body ++ line "ctx.restore();") ++ code r"})") ++
  between "(" ")" (commaSeparated (names.map (reading outer)))

/-- The loop that adds the corners of a polygon to the path. -/
def polygonLoop : Script :=
  inScope (code "for (let " ++ bind "i" .pattern ++ code r" = 0; i < sides; i++) {" ++ lineEnd ++
    inScope (indented
      (constant "angle" (code "(i * TWO_PI / sides) + (rotation || 0)") ";" ++
        constant "px" (code "x + Math.cos(angle) * radius") ";" ++
        constant "py" (code "y + Math.sin(angle) * radius") ";" ++
        codeLines ["if (i === 0) ctx.moveTo(px, py);", "else ctx.lineTo(px, py);"])) ++
    line r"}")

end Script

open Script in
mutual

/-- The script of an expression where the names `captured` are. A nested assignment stands in
parentheses. -/
def Expr.script (captured : List String) (nested : Bool) : Expr → Script
  | .ident id => reading captured id.name
  | .number _ value => code value.text
  | .string _ value => code ("\"" ++ escapeQuotes value ++ "\"")
  | .color _ value => code ("\"" ++ value ++ "\"")
  | .bool _ value => code (if value then "true" else "false")
  | .null _ => code "null"
  | .array _ elements => between "[" "]" (commaSeparated (Expr.scripts captured elements))
  | .object _ properties =>
    between r"{" r"}" (commaSeparated (Expr.propertyScripts captured properties))
  | .negate _ operand =>
    if operand.isNegation then between "-(" ")" (operand.script captured true)
    else code "-" ++ operand.script captured true
  | .binary _ op left right =>
    between "(" ")" (left.script captured true ++ code (" " ++ op.spelling ++ " ") ++
      right.script captured true)
  | .assign target value =>
    let s := target.script captured true ++ code " = " ++ value.script captured false
    if nested then between "(" ")" s else s
  | .call callee args =>
    callee.script captured true ++ between "(" ")" (commaSeparated (Expr.scripts captured args))
  | .member base property => base.script captured true ++ code ("." ++ property.name)
  | .index base key => base.script captured true ++ between "[" "]" (key.script captured true)
  | .shape _ s => drawing captured s.captured (s.body (s.captured ++ captured))

/-- The scripts of several expressions. -/
def Expr.scripts (captured : List String) : List Expr → List Script
  | [] => []
  | e :: rest => e.script captured true :: Expr.scripts captured rest

/-- The scripts of properties. -/
def Expr.propertyScripts (captured : List String) : List (String × Expr) → List Script
  | [] => []
  | (key, value) :: rest =>
    (code (Text.quote key ++ ": ") ++ value.script captured true) ::
      Expr.propertyScripts captured rest

/-- The script of an optional expression, or a text if there is none. -/
def Expr.scriptOr (captured : List String) (fallback : String) : Option Expr → Script
  | none => code fallback
  | some e => e.script captured true

/-- The constants and drawing steps of a shape. -/
def Shape.body (captured : List String) : Shape → Script
  | .circle x y size color =>
    constant "x" (x.script captured true) ";" ++ constant "y" (y.script captured true) ";" ++
    constant "size" (size.script captured true) ";" ++
    constant "color" (color.script captured true) ";" ++
    codeLines ["applyTransform(x, y);", "ctx.beginPath();",
      "ctx.arc(0, 0, size, 0, Math.PI * 2);", "ctx.fillStyle = color;", "ctx.fill();"]
  | .rect x y width height color =>
    constant "x" (x.script captured true) ";" ++ constant "y" (y.script captured true) ";" ++
    constant "w" (width.script captured true) ";" ++
    constant "h" (height.script captured true) ";" ++
    constant "color" (color.script captured true) ";" ++
    codeLines ["applyTransform(x, y);", "ctx.fillStyle = color;",
      "ctx.fillRect(-w/2, -h/2, w, h);"]
  | .line x₁ y₁ x₂ y₂ color =>
    constant "color" (color.script captured true) ";" ++
    codeLines ["ctx.strokeStyle = color;", "ctx.beginPath();"] ++
    pathTo "moveTo" (x₁.script captured true) (y₁.script captured true) ++
    pathTo "lineTo" (x₂.script captured true) (y₂.script captured true) ++
    Script.line "ctx.stroke();"
  | .triangle x₁ y₁ x₂ y₂ x₃ y₃ color =>
    constant "color" (color.script captured true) ";" ++
    codeLines ["ctx.fillStyle = color;", "ctx.beginPath();"] ++
    pathTo "moveTo" (x₁.script captured true) (y₁.script captured true) ++
    pathTo "lineTo" (x₂.script captured true) (y₂.script captured true) ++
    pathTo "lineTo" (x₃.script captured true) (y₃.script captured true) ++
    codeLines ["ctx.closePath();", "ctx.fill();"]
  | .polygon x y sides radius color rotation =>
    constant "x" (x.script captured true) ";" ++ constant "y" (y.script captured true) ";" ++
    constant "sides" (sides.script captured true) ";" ++
    constant "radius" (radius.script captured true) ";" ++
    constant "color" (color.script captured true) ";" ++
    constant "rotation" (Expr.scriptOr captured "0" rotation) ";" ++
    codeLines ["ctx.fillStyle = color;", "ctx.beginPath();"] ++ polygonLoop ++
    codeLines ["ctx.closePath();", "ctx.fill();"]
  | .ellipse x y radiusX radiusY color _ =>
    constant "x" (x.script captured true) ";" ++ constant "y" (y.script captured true) ";" ++
    constant "radiusX" (radiusX.script captured true) ";" ++
    constant "radiusY" (radiusY.script captured true) ";" ++
    constant "color" (color.script captured true) ";" ++
    codeLines ["ctx.fillStyle = color;", "ctx.beginPath();",
      "ctx.ellipse(x, y, radiusX, radiusY, 0, 0, TWO_PI);", "ctx.fill();"]
  | .arc x y radius startAngle endAngle color counterclockwise =>
    constant "x" (x.script captured true) ";" ++ constant "y" (y.script captured true) ";" ++
    constant "radius" (radius.script captured true) ";" ++
    constant "startAngle" (startAngle.script captured true) " * Math.PI / 180;" ++
    constant "endAngle" (endAngle.script captured true) " * Math.PI / 180;" ++
    constant "color" (color.script captured true) ";" ++
    codeLines ["ctx.strokeStyle = color;", "ctx.beginPath();",
      "ctx.arc(x, y, radius, startAngle, endAngle, " ++
        (if counterclockwise then "true" else "false") ++ ");",
      "ctx.stroke();"]
  | .text x y content color font size align =>
    constant "x" (x.script captured true) ";" ++ constant "y" (y.script captured true) ";" ++
    constant "text" (content.script captured true) ";" ++
    constant "color" (color.script captured true) ";" ++
    (match font with
      | some (_, name) => Script.line ("ctx.font = \"" ++ escapeQuotes name ++ "\";")
      | none => []) ++
    Shape.fontSize captured size ++
    Script.line "ctx.fillStyle = color;" ++
    (if align.isEmpty then [] else Script.line ("ctx.textAlign = " ++ Text.quote align ++ ";")) ++
    Script.line "ctx.fillText(String(text), x, y);"

/-- The constant and step that set the size of a text. -/
def Shape.fontSize (captured : List String) : Option Expr → Script
  | none => []
  | some size =>
    constant "fontSize" (size.script captured true) ";" ++
      Script.line "ctx.font = (fontSize || 16) + \"px sans-serif\";"

end

end Easel
