import Easel.Script.Expr

/-!
# Programs in scripts

Statements become statements of the script. A scene is a function that is called in place, an
`animate` block a function that schedules itself for the next frame; the names of these functions
are numbered apart over the whole script.
-/

namespace Easel

open Script

/-! ## Animation commands -/

/-- The script of an argument. -/
def Expr.argument (e : Expr) : Script := e.script [] true

/-- An update of the animation state. -/
def Script.update (field op : String) (value : Expr) : Script :=
  between ("animationState." ++ field ++ " " ++ op ++ " ") ";" value.argument ++ lineEnd

/-- A block of its own around lines of a command. -/
def Script.commandBlock (body : Script) : Script :=
  line r"{" ++ inScope (indented body) ++ line r"}"

/-- The script of a command. -/
def Motion.script : Motion → Script
  | .move amount .up => update "y" "-=" amount
  | .move amount .down => update "y" "+=" amount
  | .move amount .left => update "x" "-=" amount
  | .move amount .right => update "x" "+=" amount
  | .rotate angle => update "rotation" "+=" angle
  | .scale factor => update "scale" "*=" factor
  | .fade amount => update "opacity" "-=" amount
  | .bounce height =>
    Script.comment "Bounce animation" ++
    between "animationState.y = Math.abs(Math.sin(time() * 2)) * " ";"
      (Expr.scriptOr [] "100" height) ++ lineEnd
  | .wave amplitude frequency =>
    between "animationState.x = Math.sin(time() * " ") * " frequency.argument ++
    amplitude.argument ++ code ";" ++ lineEnd
  | .orbit centerX centerY radius speed =>
    commandBlock
      (constant "orbitAngle" (code "time() * " ++ speed.argument) ";" ++
        between "animationState.x = " " + Math.cos(orbitAngle) * " centerX.argument ++
        radius.argument ++ code ";" ++ lineEnd ++
        between "animationState.y = " " + Math.sin(orbitAngle) * " centerY.argument ++
        radius.argument ++ code ";" ++ lineEnd)
  | .pulse minScale maxScale speed =>
    commandBlock
      (constant "pulseValue" (between "(Math.sin(time() * " ") + 1) / 2"
          (Expr.scriptOr [] "1" speed)) ";" ++
        between "animationState.scale = " " + (" minScale.argument ++ maxScale.argument ++
        between " - " ") * pulseValue;" minScale.argument ++ lineEnd)
  | .wobble amount speed =>
    between "animationState.rotation = Math.sin(time() * " ") * " (Expr.scriptOr [] "5" speed) ++
    amount.argument ++ code ";" ++ lineEnd
  | .spring targetX targetY stiffness damping =>
    Script.comment "Spring animation" ++
    commandBlock
      (constant "springStiffness" (Expr.scriptOr [] "0.1" stiffness ++
          (match damping with
            | some e => code " * " ++ e.argument
            | none => [])) ";" ++
        constant "dx" targetX.argument " - animationState.x;" ++
        constant "dy" targetY.argument " - animationState.y;" ++
        codeLines ["animationState.x += dx * springStiffness;",
          "animationState.y += dy * springStiffness;"])

/-- The script of a command, with its origin. -/
def Command.script (c : Command) : Script := comingFrom c.position c.motion.script

/-! ## Function names -/

/-- The function names a script has given out: the number of `animate` blocks and the names of the
scenes. -/
structure Script.Names where
  animations : Nat := 0
  scenes : List String := []
  deriving DecidableEq, Repr

namespace Script.Names

/-- The first name of a scene's function that is not taken: its own, or that with the least number
from two on behind it. -/
def sceneName (names : Names) (scene : String) : String :=
  let base := "scene_" ++ scene
  if names.scenes.contains base then
    let numbered := (List.range' 2 names.scenes.length).map fun n => base ++ toString n
    (numbered.find? fun n => !names.scenes.contains n).getD base
  else base

/-- The name of the next `animate` block's function. -/
def animationName (names : Names) : String :=
  if names.animations = 0 then "animate" else "animate" ++ toString (names.animations + 1)

end Script.Names

/-! ## Statements -/

/-- A binding without its semicolon. -/
def Binding.script (b : Binding) : Script :=
  code "let " ++ bind b.name.name .program ++ code " = " ++ b.value.script [] false

/-- The first clause of a loop. -/
def Init.script : Init → Script
  | .binding b => b.script
  | .expr e => e.script [] false

/-- A body in braces after the head of a statement. -/
def Script.block (body : Script) : Script :=
  code r" {" ++ lineEnd ++ inScope (indented body) ++ line r"}"

/-- An import leaves only a comment. -/
def importComment (names : List Ident) (path : String) : Script :=
  match names with
  | [] => Script.comment ("import " ++ Text.quote path)
  | _ =>
    Script.comment ("import " ++ String.intercalate ", " (names.map Ident.name) ++ " from " ++
      Text.quote path)

/-- The script of an `animate` block whose function has a given name. -/
def animateScript (name : String) (commands : List Command) : Script :=
  Script.comment "Animation loop" ++
  code "function " ++ bind name .pattern ++ code r"() {" ++ lineEnd ++
  inScope (indented (line "clear();" ++ commands.flatMap Command.script ++
    line ("requestAnimationFrame(" ++ name ++ ");"))) ++
  line r"}" ++ line (name ++ "();")

mutual

/-- The script of a statement, and the function names given out after it. -/
def Stmt.script (names : Names) : Stmt → Names × Script
  | .binding b => (names, b.script ++ code ";" ++ lineEnd)
  | .function _ name params body =>
    let (names', s) := Stmt.scripts names body
    (names', code "function " ++ bind name.name .program ++
      inScope (between "(" ")" (commaSeparated (params.map fun p => bind p.name .program)) ++
        block s))
  | .ret _ none => (names, line "return;")
  | .ret _ (some value) => (names, between "return " ";" (value.script [] false) ++ lineEnd)
  | .ifThen _ cond body =>
    let (names', s) := Stmt.scripts names body
    (names', between "if (" ")" (cond.script [] true) ++ block s)
  | .ifElse _ cond body alternative =>
    let (names₁, s₁) := Stmt.scripts names body
    let (names₂, s₂) := Stmt.scripts names₁ alternative
    (names₂, between "if (" r") {" (cond.script [] true) ++ lineEnd ++ inScope (indented s₁) ++
      line r"} else {" ++ inScope (indented s₂) ++ line r"}")
  | .repeatLoop _ times body =>
    let (names', s) := Stmt.scripts names body
    (names', inScope (code "for (let " ++ bind "__i" .pattern ++ code " = 0; __i < " ++
      times.script [] true ++ code "; __i++)" ++ block s))
  | .whileLoop _ cond body =>
    let (names', s) := Stmt.scripts names body
    (names', between "while (" ")" (cond.script [] true) ++ block s)
  | .forLoop _ init cond update body =>
    let (names', s) := Stmt.scripts names body
    (names', inScope (between "for (" "; " ((init.map Init.script).getD []) ++
      cond.script [] true ++ between "; " ")" ((update.map (Expr.script [] false)).getD []) ++
      block s))
  | .importFrom _ ids path => (names, importComment ids path)
  | .scene _ name body =>
    let function := names.sceneName name
    let (names', s) := Stmt.scripts { names with scenes := function :: names.scenes } body
    (names', Script.comment ("Scene: " ++ name) ++ code "function " ++ bind function .pattern ++
      code "()" ++ block s ++ line (function ++ "();"))
  | .animate _ commands =>
    ({ names with animations := names.animations + 1 },
      animateScript names.animationName commands)
  | .expr e => (names, e.script [] false ++ code ";" ++ lineEnd)

/-- The script of statements in turn, each with its origin. -/
def Stmt.scripts (names : Names) : List Stmt → Names × Script
  | [] => (names, [])
  | s :: rest =>
    let (names₁, first) := s.script names
    let (names₂, more) := Stmt.scripts names₁ rest
    (names₂, comingFrom s.position first ++ more)

end

/-- How a script is written. -/
structure Script.Style where
  /-- The element id of the canvas; empty for the default. -/
  canvas : String := ""
  /-- The frame rate; zero or less for the default tick. -/
  fps : Int := 0
  /-- Whether to leave out the layout. -/
  minify : Bool := false
  deriving DecidableEq, Repr

namespace Script.Style

/-- The element id of the canvas. -/
def canvasId (style : Style) : String :=
  if style.canvas.isEmpty then defaultCanvas else style.canvas

end Script.Style

/-- The script of a program with its layout. -/
def Program.fullScript (canvas : String) (fps : Int) (p : Program) : Script :=
  prelude canvas fps ++ blankLine ++ Script.comment "Main program" ++
  code "(function " ++ bind "main" .pattern ++ code r"() {" ++ lineEnd ++
  inScope (indented (Stmt.scripts {} p).2) ++ line r"})();"

/-- The script of a program in a style. -/
def Program.script (style : Style) (p : Program) : Script :=
  let s := p.fullScript style.canvasId style.fps
  if style.minify then s.compact else s

/-- The text of the script of a program. -/
def generate (style : Script.Style) (p : Program) : String := (p.script style).print

end Easel
