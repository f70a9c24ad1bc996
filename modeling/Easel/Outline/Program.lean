import Easel.Numeral.Layout
import Easel.Outline.Basic
import Easel.Program.Basic
import Easel.Token.Basic

/-!
# Outlines of programs

The outline of a program shows every node with its position and its parts.
-/

namespace Easel

namespace Outline

def ofText (s : String) : Outline := .atom (Text.quote s)

def ofBool (b : Bool) : Outline := .atom (if b then "true" else "false")

/-- What is shown for an absent part. -/
def absent : Outline := .atom "nil"

def ofPosition (p : Position) : Outline :=
  .record "compiler.Position" [("Line", .atom s!"{p.line}"), ("Column", .atom s!"{p.column}")]

/-- A node: its position and then its parts. -/
def node (type : String) (p : Position) (parts : List (String × Outline)) : Outline :=
  .record ("&compiler." ++ type) (("Position", ofPosition p) :: parts)

def ofPoint (x y : Outline) : Outline := .record "compiler.Point" [("X", x), ("Y", y)]

def ofKind (k : Token.Kind) : Outline := .atom s!"{k.code}"

end Outline

def Ident.outline (id : Ident) : Outline :=
  .node "Identifier" id.position [("Name", .ofText id.name)]

/-- A list of names. -/
def Ident.outlines (ids : List Ident) : Outline :=
  .list "[]*compiler.Identifier" (ids.map Ident.outline)

mutual

def Expr.outline : Expr → Outline
  | .ident id => id.outline
  | .number p v => .node "NumberLiteral" p [("Value", .atom v.outlineText)]
  | .string p v => .node "StringLiteral" p [("Value", .ofText v)]
  | .color p v => .node "ColorLiteral" p [("Value", .ofText v)]
  | .bool p v => .node "BooleanLiteral" p [("Value", .ofBool v)]
  | .null p => .node "NullLiteral" p []
  | .array p es => .node "ArrayLiteral" p [("Elements", .list "[]compiler.Expr" (Expr.outlines es))]
  | .object p ps =>
    .node "ObjectLiteral" p [("Properties", .list "[]compiler.Property" (Expr.propertyOutlines ps))]
  | .negate p e => .node "UnaryExpr" p [("Op", .ofKind (.operator .sub)), ("Operand", e.outline)]
  | .binary p op l r =>
    .node "BinaryExpr" p
      [("Op", .ofKind (.operator op)), ("Left", l.outline), ("Right", r.outline)]
  | .assign t v => .node "AssignExpr" t.position [("Target", t.outline), ("Value", v.outline)]
  | .call c as =>
    .node "CallExpr" c.position
      [("Callee", c.outline), ("Args", .list "[]compiler.Expr" (Expr.outlines as))]
  | .member o id =>
    .node "MemberExpr" o.position [("Object", o.outline), ("Property", id.outline)]
  | .index o i => .node "IndexExpr" o.position [("Object", o.outline), ("Index", i.outline)]
  | .shape p s => s.outline p

def Expr.outlines : List Expr → List Outline
  | [] => []
  | e :: rest => e.outline :: Expr.outlines rest

def Expr.propertyOutlines : List (String × Expr) → List Outline
  | [] => []
  | (key, e) :: rest =>
    .record "compiler.Property" [("Key", .ofText key), ("Value", e.outline)] ::
      Expr.propertyOutlines rest

def Expr.optionOutline : Option Expr → Outline
  | none => .absent
  | some e => e.outline

def Shape.outline (p : Position) : Shape → Outline
  | .circle x y s c =>
    .node "Circle" p
      [("At", .ofPoint x.outline y.outline), ("Size", s.outline), ("Color", c.outline)]
  | .rect x y w h c =>
    .node "Rect" p
      [("At", .ofPoint x.outline y.outline), ("Width", w.outline), ("Height", h.outline),
        ("Color", c.outline)]
  | .line x₁ y₁ x₂ y₂ c =>
    .node "Line" p
      [("Start", .ofPoint x₁.outline y₁.outline), ("End", .ofPoint x₂.outline y₂.outline),
        ("Color", c.outline)]
  | .triangle x₁ y₁ x₂ y₂ x₃ y₃ c =>
    .node "Triangle" p
      [("Points", .list "[3]compiler.Point" [.ofPoint x₁.outline y₁.outline,
          .ofPoint x₂.outline y₂.outline, .ofPoint x₃.outline y₃.outline]),
        ("Color", c.outline)]
  | .polygon x y s r c t =>
    .node "Polygon" p
      [("At", .ofPoint x.outline y.outline), ("Sides", s.outline), ("Radius", r.outline),
        ("Color", c.outline), ("Rotation", Expr.optionOutline t)]
  | .ellipse x y a b c t =>
    .node "Ellipse" p
      [("At", .ofPoint x.outline y.outline), ("RadiusX", a.outline), ("RadiusY", b.outline),
        ("Color", c.outline), ("Rotation", Expr.optionOutline t)]
  | .arc x y r a b c ccw =>
    .node "Arc" p
      [("At", .ofPoint x.outline y.outline), ("Radius", r.outline), ("StartAngle", a.outline),
        ("EndAngle", b.outline), ("Color", c.outline), ("Counterclockwise", .ofBool ccw)]
  | .text x y t c f s al =>
    .node "Text" p
      [("At", .ofPoint x.outline y.outline), ("Content", t.outline), ("Color", c.outline),
        ("Font", match f with
          | some (q, v) => .node "StringLiteral" q [("Value", .ofText v)]
          | none => .absent),
        ("Size", Expr.optionOutline s), ("Align", .ofText al)]

end

def Command.outline (c : Command) : Outline :=
  let make (type : String) (parts : List (String × Outline)) : Outline :=
    .node type c.position parts
  match c.motion with
  | .move a d => make "Move" [("Amount", a.outline), ("Direction", .ofText d.spelling)]
  | .rotate a => make "Rotate" [("Angle", a.outline)]
  | .scale a => make "Scale" [("Factor", a.outline)]
  | .fade a => make "Fade" [("Amount", a.outline)]
  | .bounce a => make "Bounce" [("Height", Expr.optionOutline a)]
  | .wave a b => make "Wave" [("Amplitude", a.outline), ("Frequency", b.outline)]
  | .orbit x y r s =>
    make "Orbit"
      [("CenterX", x.outline), ("CenterY", y.outline), ("Radius", r.outline), ("Speed", s.outline)]
  | .pulse a b s =>
    make "Pulse"
      [("MinScale", a.outline), ("MaxScale", b.outline), ("Speed", Expr.optionOutline s)]
  | .wobble a s => make "Wobble" [("Amount", a.outline), ("Speed", Expr.optionOutline s)]
  | .spring x y s d =>
    make "Spring"
      [("TargetX", x.outline), ("TargetY", y.outline), ("Stiffness", Expr.optionOutline s),
        ("Damping", Expr.optionOutline d)]

def Binding.outline (b : Binding) : Outline :=
  .node "LetStmt" b.position [("Name", b.name.outline), ("Value", b.value.outline)]

/-- An expression in the place of a statement. -/
def Expr.statementOutline (e : Expr) : Outline := .node "ExprStmt" e.position [("Expr", e.outline)]

def Init.outline : Init → Outline
  | .binding b => b.outline
  | .expr e => e.statementOutline

mutual

def Stmt.outline : Stmt → Outline
  | .binding b => b.outline
  | .function p id ps body =>
    .node "FunctionDecl" p
      [("Name", id.outline), ("Params", Ident.outlines ps),
        ("Body", .list "[]compiler.Stmt" (Stmt.outlines body))]
  | .ret p v => .node "ReturnStmt" p [("Value", Expr.optionOutline v)]
  | .ifThen p c body =>
    .node "IfStmt" p
      [("Cond", c.outline), ("Then", .list "[]compiler.Stmt" (Stmt.outlines body)),
        ("Else", .absent)]
  | .ifElse p c body alternative =>
    .node "IfStmt" p
      [("Cond", c.outline), ("Then", .list "[]compiler.Stmt" (Stmt.outlines body)),
        ("Else", .list "[]compiler.Stmt" (Stmt.outlines alternative))]
  | .repeatLoop p t body =>
    .node "RepeatStmt" p
      [("Times", t.outline), ("Body", .list "[]compiler.Stmt" (Stmt.outlines body))]
  | .whileLoop p c body =>
    .node "WhileStmt" p
      [("Cond", c.outline), ("Body", .list "[]compiler.Stmt" (Stmt.outlines body))]
  | .forLoop p i c u body =>
    .node "ForStmt" p
      [("Init", match i with
          | some init => init.outline
          | none => .absent),
        ("Cond", c.outline), ("Update", Expr.optionOutline u),
        ("Body", .list "[]compiler.Stmt" (Stmt.outlines body))]
  | .importFrom p ids path =>
    .node "ImportStmt" p
      [("Names", if ids.isEmpty then .absent else Ident.outlines ids), ("Path", .ofText path)]
  | .scene p name body =>
    .node "SceneBlock" p
      [("Name", .ofText name), ("Body", .list "[]compiler.Stmt" (Stmt.outlines body))]
  | .animate p cs =>
    .node "AnimateBlock" p [("Commands", .list "[]compiler.Command" (cs.map Command.outline))]
  | .expr e => e.statementOutline

def Stmt.outlines : List Stmt → List Outline
  | [] => []
  | s :: rest => s.outline :: Stmt.outlines rest

end

/-- The outline of a program. -/
def Program.outline (p : Program) : Outline :=
  .record "&compiler.Program" [("Body", .list "[]compiler.Stmt" (Stmt.outlines p))]

end Easel
