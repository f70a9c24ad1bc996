import Easel.Program.Parser.Basic

/-!
# Reading expressions

Assignment binds weakest, then comparison, addition, multiplication, negation, and calls and
accesses. An operator has to start on the line of the token before it, so a line end closes an
expression. Each parser takes the parser `expr` for the expressions inside it, and
`expressionWithin` closes the circle; the number it takes bounds the nesting, and one above the
number of tokens is never used up.
-/

namespace Easel.Parser

/-! ## Primaries -/

/-- `key: value` of an object. -/
def property (expr : Parser Expr) : Parser (String × Expr) := do
  let key ← expect .identifier "Expected property name"
  let _ ← expect .colon "Expected : after property name"
  let value ← expr
  pure (key.lexeme, value)

/-- What is wrong with a token that starts no expression. -/
def misplaced (t : Token) : Problem :=
  match t.kind with
  | .unknown =>
    if t.lexeme.startsWith "\"" then .unterminatedString
    else if t.lexeme.startsWith "/*" then .unterminatedComment
    else .unexpectedCharacter t.lexeme
  | .eof => .unexpectedEnd
  | _ => .unexpectedToken t.lexeme

/-- The literal or name a token stands for by itself. -/
def leaf? (t : Token) : Option Expr :=
  match t.kind with
  | .string => some (.string t.position t.lexeme)
  | .color => some (.color t.position t.lexeme)
  | .keyword .trueKw => some (.bool t.position true)
  | .keyword .falseKw => some (.bool t.position false)
  | .keyword .nullKw => some (.null t.position)
  | .identifier => some (.ident ⟨t.position, t.lexeme⟩)
  | _ => none

/-- A number token as an expression. -/
def numberLiteral (t : Token) : Parser Expr :=
  match Numeral.ofLiteral? t.lexeme.toList with
  | some v => pure (.number t.position v)
  | none => failAt t (.invalidNumber t.lexeme)

/-- A literal, a name, an array, an object or an expression in parentheses. -/
def primary (n : Nat) (expr : Parser Expr) : Parser Expr := do
  let t ← look
  match t.kind with
  | .number =>
    discard afterNext
    numberLiteral t
  | .lbracket =>
    discard afterNext
    let elements ← itemsUntil n expr .rbracket "Expected ] after array elements"
    pure (.array t.position elements)
  | .lbrace =>
    discard afterNext
    let properties ← itemsUntil n (property expr) .rbrace r"Expected } after object properties"
    pure (.object t.position properties)
  | .lparen =>
    discard afterNext
    let e ← expr
    let _ ← expect .rparen "Expected ) after expression"
    pure e
  | _ =>
    match leaf? t with
    | some e =>
      discard afterNext
      pure e
    | none => failAt t (misplaced t)

/-! ## Shapes -/

/-- `(x, y)`. -/
def point (expr : Parser Expr) (opening closing : String) : Parser (Expr × Expr) := do
  let _ ← expect .lparen opening
  let x ← expr
  let _ ← expect .comma "Expected , in position"
  let y ← expr
  let _ ← expect .rparen closing
  pure (x, y)

/-- `at (x, y)` after the word of a shape. -/
def place (expr : Parser Expr) (shape : ShapeKind) : Parser (Expr × Expr) := do
  expectWord "at" s!"Expected \"at\" after {shape.spelling}"
  point expr "Expected ( for position" "Expected ) after position"

/-- A word and the expression it introduces. -/
def field (expr : Parser Expr) (word : String) : Parser Expr := do
  expectWord word ("Expected \"" ++ word ++ "\" keyword")
  expr

/-- An optional rotation on the same line. -/
def rotation (expr : Parser Expr) : Parser (Option Expr) := do
  if (← lookHere).kind = .command .rotate then
    discard afterNext
    let e ← expr
    pure (some e)
  else pure none

/-- An optional field on the same line. -/
def optionalField (expr : Parser Expr) (word : String) : Parser (Option Expr) := do
  if isWord word (← lookHere) then
    discard afterNext
    let e ← expr
    pure (some e)
  else pure none

/-- The content of a text: a string or a name. -/
def textContent (n : Nat) (expr : Parser Expr) : Parser Expr := do
  let t ← look
  if t.kind = .string ∨ t.kind = .identifier then primary n expr
  else failAt t (.missing "Expected text content" t)

/-- A font is kept only if it is a string literal. -/
def fontOf : Option Expr → Option (Position × String)
  | some (.string p s) => some (p, s)
  | _ => none

/-- The parts of a shape after its first word. -/
def shapeParts (n : Nat) (expr : Parser Expr) : ShapeKind → Parser Shape
  | .circle => do
    let (x, y) ← place expr .circle
    let size ← field expr "size"
    let color ← field expr "color"
    pure (.circle x y size color)
  | .rect => do
    let (x, y) ← place expr .rect
    let width ← field expr "width"
    let height ← field expr "height"
    let color ← field expr "color"
    pure (.rect x y width height color)
  | .line => do
    let (x₁, y₁) ← point expr "Expected ( for start position" "Expected ) after start position"
    let (x₂, y₂) ← point expr "Expected ( for end position" "Expected ) after end position"
    let color ← field expr "color"
    pure (.line x₁ y₁ x₂ y₂ color)
  | .triangle => do
    let (x₁, y₁) ← point expr "Expected ( for point" "Expected ) after point"
    let (x₂, y₂) ← point expr "Expected ( for point" "Expected ) after point"
    let (x₃, y₃) ← point expr "Expected ( for point" "Expected ) after point"
    let color ← field expr "color"
    pure (.triangle x₁ y₁ x₂ y₂ x₃ y₃ color)
  | .polygon => do
    let (x, y) ← place expr .polygon
    let sides ← field expr "sides"
    let radius ← field expr "radius"
    let color ← field expr "color"
    let turn ← rotation expr
    pure (.polygon x y sides radius color turn)
  | .ellipse => do
    let (x, y) ← place expr .ellipse
    let radiusX ← expr
    let radiusY ← expr
    let color ← field expr "color"
    let turn ← rotation expr
    pure (.ellipse x y radiusX radiusY color turn)
  | .arc => do
    let (x, y) ← place expr .arc
    let radius ← field expr "radius"
    let startAngle ← field expr "startAngle"
    let endAngle ← field expr "endAngle"
    let color ← field expr "color"
    pure (.arc x y radius startAngle endAngle color false)
  | .text => do
    let (x, y) ← place expr .text
    let content ← textContent n expr
    let color ← field expr "color"
    let font ← optionalField expr "font"
    let size ← optionalField expr "size"
    pure (.text x y content color (fontOf font) size "")

/-- A shape or a primary. -/
def shapeOrPrimary (n : Nat) (expr : Parser Expr) : Parser Expr := do
  let t ← look
  match t.kind with
  | .shape kind =>
    discard afterNext
    let s ← shapeParts n expr kind
    pure (.shape t.position s)
  | _ => primary n expr

/-! ## Operators -/

/-- The calls and accesses that follow an expression on its line. -/
def accesses (n : Nat) (expr : Parser Expr) : Nat → Expr → Parser Expr
  | 0, _ => exhausted
  | k + 1, e => do
    match (← lookHere).kind with
    | .lparen =>
      discard afterNext
      let args ← itemsUntil n expr .rparen "Expected ) after arguments"
      accesses n expr k (.call e args)
    | .dot =>
      discard afterNext
      let property ← name "Expected property name after ."
      accesses n expr k (.member e property)
    | .lbracket =>
      discard afterNext
      let key ← expr
      let _ ← expect .rbracket "Expected ] after index"
      accesses n expr k (.index e key)
    | _ => pure e

/-- A shape or primary with its calls and accesses. -/
def access (n : Nat) (expr : Parser Expr) : Parser Expr := do
  let e ← shapeOrPrimary n expr
  accesses n expr n e

/-- An operand after any number of minus signs. -/
def negations (operand : Parser Expr) : Nat → Parser Expr
  | 0 => exhausted
  | k + 1 => do
    let t ← look
    if t.kind = .operator .sub then
      discard afterNext
      let e ← negations operand k
      pure (.negate t.position e)
    else operand

/-- The operators of a level that follow an expression on its line, with their right operands. -/
def operations (level : Level) (operand : Parser Expr) : Nat → Expr → Parser Expr
  | 0, _ => exhausted
  | k + 1, e => do
    let t ← lookHere
    match t.kind with
    | .operator op =>
      if op.level = level then
        discard afterNext
        let right ← operand
        operations level operand k (.binary t.position op e right)
      else pure e
    | _ => pure e

/-- Operands joined from the left by the operators of a level. -/
def joined (n : Nat) (level : Level) (operand : Parser Expr) : Parser Expr := do
  let e ← operand
  operations level operand n e

/-- A comparison or anything that binds stronger. -/
def comparison (n : Nat) (expr : Parser Expr) : Parser Expr :=
  joined n .comparison <| joined n .additive <| joined n .multiplicative <|
    negations (access n expr) n

/-- An assignment or anything that binds stronger. -/
def assignment (n : Nat) (expr : Parser Expr) : Parser Expr := do
  let target ← comparison n expr
  let t ← lookHere
  if t.kind = .assign then
    discard afterNext
    if target.isTarget then
      let value ← expr
      pure (.assign target value)
    else failAt t .invalidTarget
  else pure target

/-- An expression nested at most `n` deep. -/
def expressionWithin : Nat → Parser Expr
  | 0 => exhausted
  | n + 1 => assignment n (expressionWithin n)

end Easel.Parser
