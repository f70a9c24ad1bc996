import Easel.Program.Parser.Expr

/-!
# Reading animation commands

An argument of a command is a primary after any number of minus signs. Trailing arguments may be
left out, and one that is given starts on the same line.
-/

namespace Easel.Parser

/-- One argument. -/
def argument (n : Nat) (expr : Parser Expr) : Parser Expr := negations (primary n expr) n

/-- Whether a token of this kind can start an argument. -/
def startsArgument : Token.Kind → Bool
  | .number | .identifier | .string | .color | .keyword .trueKw | .keyword .falseKw
  | .keyword .nullKw | .lparen | .lbracket | .operator .sub => true
  | _ => false

/-- An argument if one starts on this line. -/
def optionalArgument (n : Nat) (expr : Parser Expr) : Parser (Option Expr) := do
  if startsArgument (← lookHere).kind then
    let e ← argument n expr
    pure (some e)
  else pure none

/-- A direction if one stands on this line; without it the move goes to the right. -/
def direction : Parser Direction := do
  let t ← lookHere
  match (if t.kind = .identifier then Direction.ofSpelling? t.lexeme else none) with
  | some d =>
    discard afterNext
    pure d
  | none => pure .right

/-- The arguments of a command after its word. -/
def motion (n : Nat) (expr : Parser Expr) : CommandKind → Parser Motion
  | .move => do
    let amount ← argument n expr
    let d ← direction
    pure (.move amount d)
  | .rotate => do
    let angle ← argument n expr
    pure (.rotate angle)
  | .scale => do
    let factor ← argument n expr
    pure (.scale factor)
  | .fade => do
    let amount ← argument n expr
    pure (.fade amount)
  | .bounce => do
    let height ← optionalArgument n expr
    pure (.bounce height)
  | .wave => do
    let amplitude ← argument n expr
    let frequency ← argument n expr
    pure (.wave amplitude frequency)
  | .orbit => do
    let centerX ← argument n expr
    let centerY ← argument n expr
    let radius ← argument n expr
    let speed ← argument n expr
    pure (.orbit centerX centerY radius speed)
  | .pulse => do
    let minScale ← argument n expr
    let maxScale ← argument n expr
    let speed ← optionalArgument n expr
    pure (.pulse minScale maxScale speed)
  | .wobble => do
    let amount ← argument n expr
    let speed ← optionalArgument n expr
    pure (.wobble amount speed)
  | .spring => do
    let targetX ← argument n expr
    let targetY ← argument n expr
    let stiffness ← optionalArgument n expr
    let damping ← (match stiffness with
      | some _ => optionalArgument n expr
      | none => pure none)
    pure (.spring targetX targetY stiffness damping)

/-- The tokens from the next command or closing brace on. -/
def toCommand (ts : List Token) : List Token :=
  ts.dropWhile fun t =>
    match t.kind with
    | .rbrace | .eof | .command _ => false
    | _ => true

/-- The commands of an `animate` block up to its closing brace. What is no command is reported and
skipped up to the next one. -/
def commands (n : Nat) (expr : Parser Expr) : Nat → Parser (List Command)
  | 0 => pure []
  | k + 1 => do
    let t ← look
    match t.kind with
    | .rbrace | .eof => pure []
    | .command kind =>
      discard afterNext
      match ← attempt (motion n expr kind) with
      | .ok m =>
        skipOptional .semicolon
        let rest ← commands n expr k
        pure (⟨t.position, m⟩ :: rest)
      | .error fault =>
        report fault
        discard toCommand
        commands n expr k
    | _ =>
      report ⟨t.position, .unknownCommand t⟩
      discard afterNext
      discard toCommand
      commands n expr k

end Easel.Parser
