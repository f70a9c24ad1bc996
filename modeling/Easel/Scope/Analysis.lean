import Easel.Diagnostic
import Easel.Program.Basic
import Easel.Scope.Table

/-!
# Name analysis

A program is visited from left to right with a symbol table. A read of an unknown name and a second
declaration in one scope are reported, and the visit goes on. Only the bodies of functions and scenes
have scopes of their own.
-/

namespace Easel

/-- How a name is misused. -/
inductive NameProblem where
  | undefined | redeclared
  deriving DecidableEq, Repr

/-- A misused name. -/
structure NameFault where
  id : Ident
  problem : NameProblem
  deriving DecidableEq, Repr

namespace NameFault

def message (f : NameFault) : String :=
  match f.problem with
  | .undefined => s!"Undefined variable '{f.id.name}'"
  | .redeclared => s!"Variable '{f.id.name}' is already declared in this scope"

/-- The fault as a diagnostic. -/
def toDiagnostic (f : NameFault) : Diagnostic :=
  ⟨.semantic, f.id.position.line, f.id.position.column, f.message, ""⟩

end NameFault

/-- The symbol of a name that is declared. -/
def SymbolTable.symbolOf (id : Ident) (kind : SymbolKind) : Symbol :=
  ⟨id.name, kind, id.position.line, id.position.column⟩

/-- An analysis under way: the symbol table, and the misused names met so far. -/
structure Analysis where
  table : SymbolTable := .empty
  faults : List NameFault := []

/-- A visit of a part of a program. -/
abbrev Visit := StateM Analysis Unit

namespace Visit

/-- Report a misused name. -/
def report (id : Ident) (problem : NameProblem) : Visit :=
  modify fun a => { a with faults := a.faults ++ [⟨id, problem⟩] }

/-- Declare a name in the innermost scope. -/
def declare (kind : SymbolKind) (id : Ident) : Visit := do
  let (table, _, fresh) := (← get).table.declare (SymbolTable.symbolOf id kind)
  modify fun a => { a with table }
  unless fresh do report id .redeclared

/-- Look up a name that is read, which some scope or the language itself must have. -/
def resolve (id : Ident) : Visit := do
  if ((← get).table.lookup id.name).isNone then report id .undefined

/-- Visit a part in a scope of its own. -/
def withScope (part : Visit) : Visit := do
  modify fun a => { a with table := a.table.enter }
  part
  modify fun a => { a with table := a.table.exit?.getD a.table }

end Visit

open Visit

mutual

/-- Visit an expression. A property name is not read. -/
def Expr.visit : Expr → Visit
  | .ident id => resolve id
  | .number _ _ | .string _ _ | .color _ _ | .bool _ _ | .null _ => pure ()
  | .array _ elements => Expr.visitAll elements
  | .object _ properties => Expr.visitProperties properties
  | .negate _ operand => operand.visit
  | .binary _ _ left right => do left.visit; right.visit
  | .assign target value => do target.visit; value.visit
  | .call callee args => do callee.visit; Expr.visitAll args
  | .member base _ => base.visit
  | .index base key => do base.visit; key.visit
  | .shape _ s => s.visit

/-- Visit expressions in turn. -/
def Expr.visitAll : List Expr → Visit
  | [] => pure ()
  | e :: rest => do e.visit; Expr.visitAll rest

/-- Visit the values of properties in turn. -/
def Expr.visitProperties : List (String × Expr) → Visit
  | [] => pure ()
  | (_, value) :: rest => do value.visit; Expr.visitProperties rest

/-- Visit an expression that may be missing. -/
def Expr.visitOptional : Option Expr → Visit
  | none => pure ()
  | some e => e.visit

/-- Visit the fields of a shape. A font has no names. -/
def Shape.visit : Shape → Visit
  | .circle x y size color => do x.visit; y.visit; size.visit; color.visit
  | .rect x y width height color => do x.visit; y.visit; width.visit; height.visit; color.visit
  | .line x₁ y₁ x₂ y₂ color => do x₁.visit; y₁.visit; x₂.visit; y₂.visit; color.visit
  | .triangle x₁ y₁ x₂ y₂ x₃ y₃ color => do
    x₁.visit; y₁.visit; x₂.visit; y₂.visit; x₃.visit; y₃.visit; color.visit
  | .polygon x y sides radius color rotation => do
    x.visit; y.visit; sides.visit; radius.visit; color.visit; Expr.visitOptional rotation
  | .ellipse x y radiusX radiusY color rotation => do
    x.visit; y.visit; radiusX.visit; radiusY.visit; color.visit; Expr.visitOptional rotation
  | .arc x y radius startAngle endAngle color _ => do
    x.visit; y.visit; radius.visit; startAngle.visit; endAngle.visit; color.visit
  | .text x y content color _ size _ => do
    x.visit; y.visit; content.visit; color.visit; Expr.visitOptional size

end

/-- Visit the arguments of a command. -/
def Motion.visit : Motion → Visit
  | .move e _ | .rotate e | .scale e | .fade e => e.visit
  | .bounce height => Expr.visitOptional height
  | .wave amplitude frequency => do amplitude.visit; frequency.visit
  | .orbit centerX centerY radius speed => do
    centerX.visit; centerY.visit; radius.visit; speed.visit
  | .pulse minScale maxScale speed => do
    minScale.visit; maxScale.visit; Expr.visitOptional speed
  | .wobble amount speed => do amount.visit; Expr.visitOptional speed
  | .spring targetX targetY stiffness damping => do
    targetX.visit; targetY.visit; Expr.visitOptional stiffness; Expr.visitOptional damping

/-- Visit a binding: its value before its name. -/
def Binding.visit (b : Binding) : Visit := do b.value.visit; declare .var b.name

/-- Visit the first clause of a loop. -/
def Init.visit : Init → Visit
  | .binding b => b.visit
  | .expr e => e.visit

mutual

/-- Visit a statement. -/
def Stmt.visit : Stmt → Visit
  | .binding b => b.visit
  | .function _ name params body => do
    declare .function name
    withScope do
      params.forM (declare .parameter)
      Stmt.visitAll body
  | .ret _ value => Expr.visitOptional value
  | .ifThen _ cond body => do cond.visit; Stmt.visitAll body
  | .ifElse _ cond body alternative => do
    cond.visit
    Stmt.visitAll body
    Stmt.visitAll alternative
  | .repeatLoop _ times body => do times.visit; Stmt.visitAll body
  | .whileLoop _ cond body => do cond.visit; Stmt.visitAll body
  | .forLoop _ init cond update body => do
    init.forM Init.visit
    cond.visit
    Expr.visitOptional update
    Stmt.visitAll body
  | .importFrom _ names _ => names.forM (declare .imported)
  | .scene _ _ body => withScope (Stmt.visitAll body)
  | .animate _ commands => commands.forM fun c => c.motion.visit
  | .expr e => e.visit

/-- Visit statements in turn. -/
def Stmt.visitAll : List Stmt → Visit
  | [] => pure ()
  | s :: rest => do s.visit; Stmt.visitAll rest

end

/-- The symbol table a program leaves and the names it misuses. -/
def analyze (p : Program) : SymbolTable × List NameFault :=
  let (_, a) := (Stmt.visitAll p).run {}
  (a.table, a.faults)

end Easel
