import Easel.Program.Basic
import Easel.Token.Basic

/-!
# The grammar

The grammar of the language, as relations between words and what they spell.  A word is a token that
is no line end, and knows whether a line end stands directly before it: infix and postfix operators,
the value of a `return` and the optional parts at the end of commands and shapes have to follow the
word before them on its line.

Each relation is one rule of the grammar.  Those that mention expressions take the relation `E` of
expressions, those that mention blocks the relation `S` of sequences of statements; `Expression` and
`Statements` close the circles.
-/

namespace Easel.Grammar

/-! ## Words -/

/-- A token that is no line end. -/
structure Word where
  token : Token
  /-- Whether a line end stands directly before it. -/
  fresh : Bool
  deriving DecidableEq

/-- The words of tokens that follow a line end, or do not. -/
def wordsFrom : Bool → List Token → List Word
  | _, [] => []
  | fresh, t :: ts =>
    if t.kind = .newline then wordsFrom true ts else ⟨t, fresh⟩ :: wordsFrom false ts

/-- The words of tokens. -/
def words (ts : List Token) : List Word := wordsFrom false ts

namespace Word

def Is (kind : Token.Kind) (w : Word) : Prop := w.token.kind = kind

/-- The word is a given one that is not reserved. -/
def Spells (text : String) (w : Word) : Prop := w.Is .identifier ∧ w.token.lexeme = text

/-- The word follows the one before it on the same line. -/
def Joins (w : Word) : Prop := w.fresh = false

def position (w : Word) : Position := w.token.position

def lexeme (w : Word) : String := w.token.lexeme

def ident (w : Word) : Ident := ⟨w.position, w.lexeme⟩

end Word

/-- The first of the words, if there is one, follows the word before it on the same line. -/
def Joined (ws : List Word) : Prop := ∀ w ∈ ws.head?, w.Joins

/-- A rule of the grammar: which words spell which values. -/
abbrev Rule (α : Type) : Type := List Word → α → Prop

/-! ## Lists -/

section Lists

variable {α : Type} (R : Rule α)

/-- `item ("," item)*` -/
inductive Separated : Rule (List α)
  | one {ws : List Word} {a : α} (h : R ws a) : Separated ws [a]
  | more {us vs : List Word} {comma : Word} {a : α} {as : List α} (h : R us a)
      (hcomma : comma.Is .comma) (hmore : Separated vs as) :
      Separated (us ++ comma :: vs) (a :: as)

/-- `[item ("," item)*]` -/
inductive Listed : Rule (List α)
  | none : Listed [] []
  | some {ws : List Word} {as : List α} (h : Separated R ws as) : Listed ws as

end Lists

/-- `IDENTIFIER` -/
inductive Name : Rule Ident
  | mk {w : Word} (h : w.Is .identifier) : Name [w] w.ident

/-! ## Expressions -/

section Expressions

variable (E : Rule Expr)

/-- `IDENTIFIER ":" expression` -/
inductive Property : Rule (String × Expr)
  | mk {key colon : Word} {ws : List Word} {e : Expr} (hkey : key.Is .identifier)
      (hcolon : colon.Is .colon) (h : E ws e) : Property (key :: colon :: ws) (key.lexeme, e)

/-- `NUMBER | STRING | COLOR | "true" | "false" | "null" | IDENTIFIER | "[" elements "]" |
"{" properties "}" | "(" expression ")"` -/
inductive Primary : Rule Expr
  | number {w : Word} {v : Numeral} (h : w.Is .number)
      (hv : Numeral.ofLiteral? w.lexeme.toList = some v) : Primary [w] (.number w.position v)
  | string {w : Word} (h : w.Is .string) : Primary [w] (.string w.position w.lexeme)
  | color {w : Word} (h : w.Is .color) : Primary [w] (.color w.position w.lexeme)
  | true {w : Word} (h : w.Is (.keyword .trueKw)) : Primary [w] (.bool w.position Bool.true)
  | false {w : Word} (h : w.Is (.keyword .falseKw)) : Primary [w] (.bool w.position Bool.false)
  | null {w : Word} (h : w.Is (.keyword .nullKw)) : Primary [w] (.null w.position)
  | ident {w : Word} (h : w.Is .identifier) : Primary [w] (.ident w.ident)
  | array {o c : Word} {ws : List Word} {es : List Expr} (ho : o.Is .lbracket) (h : Listed E ws es)
      (hc : c.Is .rbracket) : Primary (o :: (ws ++ [c])) (.array o.position es)
  | object {o c : Word} {ws : List Word} {ps : List (String × Expr)} (ho : o.Is .lbrace)
      (h : Listed (Property E) ws ps) (hc : c.Is .rbrace) :
      Primary (o :: (ws ++ [c])) (.object o.position ps)
  | parens {o c : Word} {ws : List Word} {e : Expr} (ho : o.Is .lparen) (h : E ws e)
      (hc : c.Is .rparen) : Primary (o :: (ws ++ [c])) e

/-- `"(" expression "," expression ")"` -/
inductive Point : Rule (Expr × Expr)
  | mk {o comma c : Word} {us vs : List Word} {x y : Expr} (ho : o.Is .lparen) (hx : E us x)
      (hcomma : comma.Is .comma) (hy : E vs y) (hc : c.Is .rparen) :
      Point (o :: (us ++ comma :: (vs ++ [c]))) (x, y)

/-- `"at" point` -/
inductive Place : Rule (Expr × Expr)
  | mk {w : Word} {ws : List Word} {q : Expr × Expr} (hw : w.Spells "at") (h : Point E ws q) :
      Place (w :: ws) q

/-- A word that is not reserved, and the expression it introduces. -/
inductive Field : String → Rule Expr
  | mk {text : String} {w : Word} {ws : List Word} {e : Expr} (hw : w.Spells text) (h : E ws e) :
      Field text (w :: ws) e

/-- `["rotate" expression]` -/
inductive Rotation : Rule (Option Expr)
  | none : Rotation [] none
  | some {w : Word} {ws : List Word} {e : Expr} (hw : w.Is (.command .rotate)) (hline : w.Joins)
      (h : E ws e) : Rotation (w :: ws) (some e)

/-- `["size" expression]` -/
inductive Size : Rule (Option Expr)
  | none : Size [] none
  | some {w : Word} {ws : List Word} {e : Expr} (hw : w.Spells "size") (hline : w.Joins)
      (h : E ws e) : Size (w :: ws) (some e)

/-- `["font" expression]`, where an expression other than a string literal leaves no trace. -/
inductive Font : Rule (Option (Position × String))
  | none : Font [] none
  | string {w : Word} {ws : List Word} {p : Position} {s : String} (hw : w.Spells "font")
      (hline : w.Joins) (h : E ws (.string p s)) : Font (w :: ws) (some (p, s))
  | other {w : Word} {ws : List Word} {e : Expr} (hw : w.Spells "font") (hline : w.Joins)
      (h : E ws e) (he : ∀ p s, e ≠ .string p s) : Font (w :: ws) none

/-- `STRING | IDENTIFIER` -/
inductive TextContent : Rule Expr
  | string {w : Word} (h : w.Is .string) : TextContent [w] (.string w.position w.lexeme)
  | ident {w : Word} (h : w.Is .identifier) : TextContent [w] (.ident w.ident)

/-- The forms of the shapes, after the word that names them. -/
inductive ShapeForm : ShapeKind → Rule Shape
  | circle {as bs cs : List Word} {x y size color : Expr} (hat : Place E as (x, y))
      (hsize : Field E "size" bs size) (hcolor : Field E "color" cs color) :
      ShapeForm .circle (as ++ (bs ++ cs)) (.circle x y size color)
  | rect {as bs cs ds : List Word} {x y width height color : Expr} (hat : Place E as (x, y))
      (hwidth : Field E "width" bs width) (hheight : Field E "height" cs height)
      (hcolor : Field E "color" ds color) :
      ShapeForm .rect (as ++ (bs ++ (cs ++ ds))) (.rect x y width height color)
  | line {as bs cs : List Word} {x₁ y₁ x₂ y₂ color : Expr} (hstart : Point E as (x₁, y₁))
      (hend : Point E bs (x₂, y₂)) (hcolor : Field E "color" cs color) :
      ShapeForm .line (as ++ (bs ++ cs)) (.line x₁ y₁ x₂ y₂ color)
  | triangle {as bs cs ds : List Word} {x₁ y₁ x₂ y₂ x₃ y₃ color : Expr} (h₁ : Point E as (x₁, y₁))
      (h₂ : Point E bs (x₂, y₂)) (h₃ : Point E cs (x₃, y₃)) (hcolor : Field E "color" ds color) :
      ShapeForm .triangle (as ++ (bs ++ (cs ++ ds))) (.triangle x₁ y₁ x₂ y₂ x₃ y₃ color)
  | polygon {as bs cs ds es : List Word} {x y sides radius color : Expr} {rotation : Option Expr}
      (hat : Place E as (x, y)) (hsides : Field E "sides" bs sides)
      (hradius : Field E "radius" cs radius) (hcolor : Field E "color" ds color)
      (hrotation : Rotation E es rotation) :
      ShapeForm .polygon (as ++ (bs ++ (cs ++ (ds ++ es)))) (.polygon x y sides radius color rotation)
  | ellipse {as bs cs ds es : List Word} {x y radiusX radiusY color : Expr}
      {rotation : Option Expr} (hat : Place E as (x, y)) (hradiusX : E bs radiusX)
      (hradiusY : E cs radiusY) (hcolor : Field E "color" ds color)
      (hrotation : Rotation E es rotation) :
      ShapeForm .ellipse (as ++ (bs ++ (cs ++ (ds ++ es))))
        (.ellipse x y radiusX radiusY color rotation)
  | arc {as bs cs ds es : List Word} {x y radius startAngle endAngle color : Expr}
      (hat : Place E as (x, y)) (hradius : Field E "radius" bs radius)
      (hstart : Field E "startAngle" cs startAngle) (hend : Field E "endAngle" ds endAngle)
      (hcolor : Field E "color" es color) :
      ShapeForm .arc (as ++ (bs ++ (cs ++ (ds ++ es)))) (.arc x y radius startAngle endAngle color false)
  | text {as bs cs ds es : List Word} {x y content color : Expr} {font : Option (Position × String)}
      {size : Option Expr} (hat : Place E as (x, y)) (hcontent : TextContent bs content)
      (hcolor : Field E "color" cs color) (hfont : Font E ds font) (hsize : Size E es size) :
      ShapeForm .text (as ++ (bs ++ (cs ++ (ds ++ es)))) (.text x y content color font size "")

/-- `(shape | primary) ("(" args ")" | "." IDENTIFIER | "[" expression "]")*` -/
inductive Access : Rule Expr
  | shape {w : Word} {kind : ShapeKind} {ws : List Word} {s : Shape} (hw : w.Is (.shape kind))
      (h : ShapeForm E kind ws s) : Access (w :: ws) (.shape w.position s)
  | primary {ws : List Word} {e : Expr} (h : Primary E ws e) : Access ws e
  | call {us vs : List Word} {o c : Word} {f : Expr} {args : List Expr} (hf : Access us f)
      (ho : o.Is .lparen) (hline : o.Joins) (hargs : Listed E vs args) (hc : c.Is .rparen) :
      Access (us ++ o :: (vs ++ [c])) (.call f args)
  | member {us : List Word} {dot name : Word} {object : Expr} (hobject : Access us object)
      (hdot : dot.Is .dot) (hline : dot.Joins) (hname : name.Is .identifier) :
      Access (us ++ [dot, name]) (.member object name.ident)
  | index {us vs : List Word} {o c : Word} {object key : Expr} (hobject : Access us object)
      (ho : o.Is .lbracket) (hline : o.Joins) (hkey : E vs key) (hc : c.Is .rbracket) :
      Access (us ++ o :: (vs ++ [c])) (.index object key)

end Expressions

/-- `"-"* operand` -/
inductive Unary (R : Rule Expr) : Rule Expr
  | operand {ws : List Word} {e : Expr} (h : R ws e) : Unary R ws e
  | negate {w : Word} {ws : List Word} {e : Expr} (hw : w.Is (.operator .sub)) (h : Unary R ws e) :
      Unary R (w :: ws) (.negate w.position e)

/-- `operand (operator operand)*` with the operators of a level, grouped to the left. -/
inductive Chain (ops : List BinaryOp) (R : Rule Expr) : Rule Expr
  | operand {ws : List Word} {e : Expr} (h : R ws e) : Chain ops R ws e
  | binary {us vs : List Word} {w : Word} {op : BinaryOp} {left right : Expr}
      (hleft : Chain ops R us left) (hw : w.Is (.operator op)) (hop : op ∈ ops) (hline : w.Joins)
      (hright : R vs right) : Chain ops R (us ++ w :: vs) (.binary w.position op left right)

def comparisons : List BinaryOp := [.lt, .le, .gt, .ge, .eq, .ne]

def additions : List BinaryOp := [.add, .sub]

def multiplications : List BinaryOp := [.mul, .div, .mod]

/-- `comparison ["=" assignment]`, where comparison, addition, multiplication, negation, and calls
and accesses bind stronger and stronger. -/
inductive Expression : Rule Expr
  | comparison {ws : List Word} {e : Expr}
      (h : Chain comparisons (Chain additions (Chain multiplications (Unary (Access Expression))))
        ws e) : Expression ws e
  | assign {us vs : List Word} {w : Word} {target value : Expr}
      (htarget : Chain comparisons (Chain additions (Chain multiplications
        (Unary (Access Expression)))) us target)
      (hw : w.Is .assign) (hline : w.Joins) (hvalue : Expression vs value) :
      Expression (us ++ w :: vs) (.assign target value)

/-! ## Commands -/

/-- `"-" arg | primary` -/
abbrev Argument : Rule Expr := Unary (Primary Expression)

/-- `[arg]` -/
inductive OptionalArgument : Rule (Option Expr)
  | none : OptionalArgument [] none
  | some {ws : List Word} {e : Expr} (hline : Joined ws) (h : Argument ws e) :
      OptionalArgument ws (some e)

/-- The forms of the commands, after the word that names them. -/
inductive MotionForm : CommandKind → Rule Motion
  | move {as : List Word} {amount : Expr} (h : Argument as amount) :
      MotionForm .move as (.move amount .right)
  | moveTo {as : List Word} {w : Word} {amount : Expr} {d : Direction} (h : Argument as amount)
      (hw : w.Spells d.spelling) (hline : w.Joins) :
      MotionForm .move (as ++ [w]) (.move amount d)
  | rotate {as : List Word} {angle : Expr} (h : Argument as angle) :
      MotionForm .rotate as (.rotate angle)
  | scale {as : List Word} {factor : Expr} (h : Argument as factor) :
      MotionForm .scale as (.scale factor)
  | fade {as : List Word} {amount : Expr} (h : Argument as amount) :
      MotionForm .fade as (.fade amount)
  | bounce {as : List Word} {height : Option Expr} (h : OptionalArgument as height) :
      MotionForm .bounce as (.bounce height)
  | wave {as bs : List Word} {amplitude frequency : Expr} (ha : Argument as amplitude)
      (hf : Argument bs frequency) : MotionForm .wave (as ++ bs) (.wave amplitude frequency)
  | orbit {as bs cs ds : List Word} {centerX centerY radius speed : Expr}
      (hx : Argument as centerX) (hy : Argument bs centerY) (hradius : Argument cs radius)
      (hspeed : Argument ds speed) :
      MotionForm .orbit (as ++ (bs ++ (cs ++ ds))) (.orbit centerX centerY radius speed)
  | pulse {as bs cs : List Word} {minScale maxScale : Expr} {speed : Option Expr}
      (hmin : Argument as minScale) (hmax : Argument bs maxScale)
      (hspeed : OptionalArgument cs speed) :
      MotionForm .pulse (as ++ (bs ++ cs)) (.pulse minScale maxScale speed)
  | wobble {as bs : List Word} {amount : Expr} {speed : Option Expr} (ha : Argument as amount)
      (hspeed : OptionalArgument bs speed) : MotionForm .wobble (as ++ bs) (.wobble amount speed)
  /-- Of two optional arguments, one that stands alone is the first. -/
  | spring {as bs cs ds : List Word} {targetX targetY : Expr} {stiffness damping : Option Expr}
      (hx : Argument as targetX) (hy : Argument bs targetY)
      (hstiffness : OptionalArgument cs stiffness) (hdamping : OptionalArgument ds damping)
      (hfirst : stiffness = none → damping = none) :
      MotionForm .spring (as ++ (bs ++ (cs ++ ds))) (.spring targetX targetY stiffness damping)

/-- `command*`, where a semicolon may or may not be allowed after a command. -/
inductive Commands (semicolons : Bool) : Rule (List Command)
  | nil : Commands semicolons [] []
  | cons {w : Word} {kind : CommandKind} {us vs : List Word} {m : Motion} {cs : List Command}
      (hw : w.Is (.command kind)) (h : MotionForm kind us m) (hmore : Commands semicolons vs cs) :
      Commands semicolons (w :: (us ++ vs)) (⟨w.position, m⟩ :: cs)
  | semicolon {w s : Word} {kind : CommandKind} {us vs : List Word} {m : Motion}
      {cs : List Command} (hallowed : semicolons = true) (hw : w.Is (.command kind))
      (h : MotionForm kind us m) (hs : s.Is .semicolon) (hmore : Commands semicolons vs cs) :
      Commands semicolons (w :: (us ++ s :: vs)) (⟨w.position, m⟩ :: cs)

/-! ## Statements -/

/-- `"let" IDENTIFIER "=" expression` -/
inductive Let : Rule Binding
  | mk {w name sign : Word} {ws : List Word} {e : Expr} (hw : w.Is (.keyword .letKw))
      (hname : name.Is .identifier) (hsign : sign.Is .assign) (h : Expression ws e) :
      Let (w :: name :: sign :: ws) ⟨w.position, name.ident, e⟩

/-- `[let | expression]` -/
inductive InitClause : Rule (Option Init)
  | none : InitClause [] none
  | binding {ws : List Word} {b : Binding} (h : Let ws b) : InitClause ws (some (.binding b))
  | expr {ws : List Word} {e : Expr} (h : Expression ws e) : InitClause ws (some (.expr e))

/-- `[expression]` -/
inductive UpdateClause : Rule (Option Expr)
  | none : UpdateClause [] none
  | some {ws : List Word} {e : Expr} (h : Expression ws e) : UpdateClause ws (some e)

/-- `[IDENTIFIER ("," IDENTIFIER)* "from"]` -/
inductive ImportedNames : Rule (List Ident)
  | none : ImportedNames [] []
  | some {ws : List Word} {w : Word} {ids : List Ident} (h : Separated Name ws ids)
      (hw : w.Spells "from") : ImportedNames (ws ++ [w]) ids

section Statements

variable (semicolons : Bool) (S : Rule (List Stmt))

/-- `"{" statement* "}"` -/
inductive Block : Rule (List Stmt)
  | mk {o c : Word} {ws : List Word} {body : List Stmt} (ho : o.Is .lbrace) (h : S ws body)
      (hc : c.Is .rbrace) : Block (o :: (ws ++ [c])) body

/-- `"if" expression block ["else" (block | if)]` -/
inductive If : Rule Stmt
  | ifThen {w : Word} {us vs : List Word} {cond : Expr} {body : List Stmt}
      (hw : w.Is (.keyword .ifKw)) (hcond : Expression us cond) (hbody : Block S vs body) :
      If (w :: (us ++ vs)) (.ifThen w.position cond body)
  | ifElse {w other : Word} {us vs ws : List Word} {cond : Expr} {body alternative : List Stmt}
      (hw : w.Is (.keyword .ifKw)) (hcond : Expression us cond) (hbody : Block S vs body)
      (hother : other.Is (.keyword .elseKw)) (halternative : Block S ws alternative) :
      If (w :: (us ++ (vs ++ other :: ws))) (.ifElse w.position cond body alternative)
  | elseIf {w other : Word} {us vs ws : List Word} {cond : Expr} {body : List Stmt} {nested : Stmt}
      (hw : w.Is (.keyword .ifKw)) (hcond : Expression us cond) (hbody : Block S vs body)
      (hother : other.Is (.keyword .elseKw)) (hnested : If ws nested) :
      If (w :: (us ++ (vs ++ other :: ws))) (.ifElse w.position cond body [nested])

/-- `let | fn | return | if | repeat | while | for | import | scene | animate | expression` -/
inductive BareStatement : Rule Stmt
  | binding {ws : List Word} {b : Binding} (h : Let ws b) : BareStatement ws (.binding b)
  | function {w name o c : Word} {us vs : List Word} {params : List Ident} {body : List Stmt}
      (hw : w.Is (.keyword .fnKw)) (hname : name.Is .identifier) (ho : o.Is .lparen)
      (hparams : Listed Name us params) (hc : c.Is .rparen) (hbody : Block S vs body) :
      BareStatement (w :: name :: o :: (us ++ c :: vs))
        (.function w.position name.ident params body)
  | ret {w : Word} (hw : w.Is (.keyword .returnKw)) : BareStatement [w] (.ret w.position none)
  | retValue {w : Word} {ws : List Word} {e : Expr} (hw : w.Is (.keyword .returnKw))
      (hline : Joined ws) (h : Expression ws e) :
      BareStatement (w :: ws) (.ret w.position (some e))
  | cond {ws : List Word} {s : Stmt} (h : If S ws s) : BareStatement ws s
  | repeatLoop {w : Word} {us vs : List Word} {times : Expr} {body : List Stmt}
      (hw : w.Is (.keyword .repeatKw)) (htimes : Expression us times) (hbody : Block S vs body) :
      BareStatement (w :: (us ++ vs)) (.repeatLoop w.position times body)
  | whileLoop {w : Word} {us vs : List Word} {cond : Expr} {body : List Stmt}
      (hw : w.Is (.keyword .whileKw)) (hcond : Expression us cond) (hbody : Block S vs body) :
      BareStatement (w :: (us ++ vs)) (.whileLoop w.position cond body)
  | forLoop {w o s₁ s₂ c : Word} {as bs cs ds : List Word} {init : Option Init} {cond : Expr}
      {update : Option Expr} {body : List Stmt} (hw : w.Is (.keyword .forKw)) (ho : o.Is .lparen)
      (hinit : InitClause as init) (hs₁ : s₁.Is .semicolon) (hcond : Expression bs cond)
      (hs₂ : s₂.Is .semicolon) (hupdate : UpdateClause cs update) (hc : c.Is .rparen)
      (hbody : Block S ds body) :
      BareStatement (w :: o :: (as ++ s₁ :: (bs ++ s₂ :: (cs ++ c :: ds))))
        (.forLoop w.position init cond update body)
  | importFrom {w path : Word} {us : List Word} {names : List Ident}
      (hw : w.Is (.keyword .importKw)) (hnames : ImportedNames us names) (hpath : path.Is .string) :
      BareStatement (w :: (us ++ [path])) (.importFrom w.position names path.lexeme)
  | scene {w name : Word} {ws : List Word} {body : List Stmt} (hw : w.Is (.keyword .sceneKw))
      (hname : name.Is .identifier) (hbody : Block S ws body) :
      BareStatement (w :: name :: ws) (.scene w.position name.lexeme body)
  | animate {w o c : Word} {ws : List Word} {commands : List Command}
      (hw : w.Is (.keyword .animateKw)) (ho : o.Is .lbrace)
      (hcommands : Commands semicolons ws commands) (hc : c.Is .rbrace) :
      BareStatement (w :: o :: (ws ++ [c])) (.animate w.position commands)
  | expr {ws : List Word} {e : Expr} (h : Expression ws e) : BareStatement ws (.expr e)

/-- A statement and `[";"]` -/
inductive Statement : Rule Stmt
  | bare {ws : List Word} {s : Stmt} (h : BareStatement semicolons S ws s) : Statement ws s
  | semicolon {ws : List Word} {w : Word} {s : Stmt} (h : BareStatement semicolons S ws s)
      (hw : w.Is .semicolon) : Statement (ws ++ [w]) s

end Statements

/-- `statement*` -/
inductive Statements (semicolons : Bool) : Rule (List Stmt)
  | nil : Statements semicolons [] []
  | cons {us vs : List Word} {s : Stmt} {ss : List Stmt}
      (h : Statement semicolons (Statements semicolons) us s) (hmore : Statements semicolons vs ss) :
      Statements semicolons (us ++ vs) (s :: ss)

/-- `statement* EOF`: the words of a whole program. -/
inductive Derives (semicolons : Bool) : Rule Program
  | mk {ws : List Word} {w : Word} {p : Program} (h : Statements semicolons ws p)
      (hw : w.Is .eof) : Derives semicolons (ws ++ [w]) p

end Easel.Grammar
