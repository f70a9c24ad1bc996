import Easel.Diagnostic
import Easel.Program.Basic
import Easel.Token.Basic

/-!
# Parsers over tokens

A parser reads a list of tokens and leaves the ones it did not consume, also when it fails: the
reader of statements goes on from there. Line ends are skipped between tokens, except where the rest
of a construct has to start on the same line.

Parsers that repeat or nest count down a number. At zero a list of statements or commands ends, and
others fail with a fault of its own. The numbers that `parse` starts with are never used up.
-/

namespace Easel

/-- What is wrong with the tokens at some place. -/
inductive Problem where
  /-- The text names what was expected. -/
  | missing (expected : String) (found : Token)
  | unknownCommand (found : Token)
  | invalidTarget
  | invalidNumber (lexeme : String)
  | unterminatedString
  | unterminatedComment
  | unexpectedCharacter (lexeme : String)
  | unexpectedEnd
  | unexpectedToken (lexeme : String)
  /-- A bound of the parser is used up. -/
  | exhausted
  deriving DecidableEq, Repr

/-- A problem with its place. -/
structure Fault where
  position : Position
  problem : Problem
  deriving DecidableEq, Repr

namespace Problem

/-- How a message names a token. -/
def nameOf (t : Token) : String :=
  match t.kind with
  | .eof => "end of input"
  | .string => Text.quote t.lexeme
  | _ => s!"'{t.lexeme}'"

def message : Problem → String
  | missing expected found => s!"{expected}, found {nameOf found}"
  | unknownCommand found => s!"Unknown animation command {nameOf found}"
  | invalidTarget => "Invalid assignment target"
  | invalidNumber lexeme => s!"Invalid number {lexeme}"
  | unterminatedString => "Unterminated string"
  | unterminatedComment => "Unterminated block comment"
  | unexpectedCharacter lexeme => s!"Unexpected character '{lexeme}'"
  | unexpectedEnd => "Unexpected end of input"
  | unexpectedToken lexeme => s!"Unexpected token: {lexeme}"
  | exhausted => "Nesting too deep"

end Problem

/-- The fault as a diagnostic. -/
def Fault.toDiagnostic (f : Fault) : Diagnostic :=
  ⟨.parse, f.position.line, f.position.column, f.problem.message, ""⟩

/-- What a parser did: its value or the fault it stopped at, the faults it reported on the way, and
the tokens it left. -/
structure Outcome (α : Type) where
  result : Except Fault α
  reported : List Fault
  rest : List Token

/-- A parser of tokens. -/
def Parser (α : Type) : Type := List Token → Outcome α

namespace Parser

/-- Run `p`, and on success `f` on its value and on the tokens it left. -/
def andThen {α β : Type} (p : Parser α) (f : α → Parser β) : Parser β := fun ts =>
  let first := p ts
  match first.result with
  | .error fault => ⟨.error fault, first.reported, first.rest⟩
  | .ok a =>
    let second := f a first.rest
    ⟨second.result, first.reported ++ second.reported, second.rest⟩

instance : Monad Parser where
  pure a := fun ts => ⟨.ok a, [], ts⟩
  bind := andThen

/-- The tokens without the line ends before the next one. -/
def significant (ts : List Token) : List Token := ts.dropWhile (fun t => t.kind == .newline)

/-- The next token, across line ends. -/
def peek (ts : List Token) : Token := (significant ts).headD .beyond

/-- The tokens after the next one. The end of the text is never passed. -/
def afterNext (ts : List Token) : List Token :=
  match significant ts with
  | [] => []
  | t :: rest => if t.kind = .eof then t :: rest else rest

/-- The next token, without consuming it. -/
def look : Parser Token := fun ts => ⟨.ok (peek ts), [], ts⟩

/-- The next token or line end, without consuming it. -/
def lookHere : Parser Token := fun ts => ⟨.ok (ts.headD .beyond), [], ts⟩

/-- Consume the next token. -/
def next : Parser Token := fun ts => ⟨.ok (peek ts), [], afterNext ts⟩

/-- Consume line ends. -/
def skipLineEnds : Parser Unit := fun ts => ⟨.ok (), [], significant ts⟩

/-- Stop at a token. -/
def failAt {α : Type} (t : Token) (problem : Problem) : Parser α :=
  fun ts => ⟨.error ⟨t.position, problem⟩, [], ts⟩

/-- Stop where a bound is used up. -/
def exhausted {α : Type} : Parser α := do failAt (← look) .exhausted

/-- Report a fault and go on. -/
def report (fault : Fault) : Parser Unit := fun ts => ⟨.ok (), [fault], ts⟩

/-- Run `p` and hand its fault over as a value. -/
def attempt {α : Type} (p : Parser α) : Parser (Except Fault α) := fun ts =>
  let o := p ts
  ⟨.ok o.result, o.reported, o.rest⟩

/-- Drop tokens. -/
def discard (f : List Token → List Token) : Parser Unit := fun ts => ⟨.ok (), [], f ts⟩

/-- Consume a token of a given kind. -/
def expect (kind : Token.Kind) (expected : String) : Parser Token := do
  let t ← look
  if t.kind = kind then next else failAt t (.missing expected t)

/-- Whether a token is a given word that is not reserved. -/
def isWord (word : String) (t : Token) : Bool := t.kind == .identifier && t.lexeme == word

/-- Consume a given word that is not reserved. -/
def expectWord (word : String) (expected : String) : Parser Unit := do
  let t ← look
  if isWord word t then discard afterNext else failAt t (.missing expected t)

/-- Consume a token of a given kind if it comes next. -/
def skipOptional (kind : Token.Kind) : Parser Unit := do
  if (← look).kind = kind then discard afterNext

/-- The items that follow a first one, each after a comma. The number bounds how many. -/
def moreItems {α : Type} (item : Parser α) : Nat → Parser (List α)
  | 0 => exhausted
  | n + 1 => do
    if (← look).kind = .comma then
      discard afterNext
      let a ← item
      let rest ← moreItems item n
      pure (a :: rest)
    else pure []

/-- One or more items with commas between them. -/
def items {α : Type} (n : Nat) (item : Parser α) : Parser (List α) := do
  let a ← item
  let rest ← moreItems item n
  pure (a :: rest)

/-- Items up to a closing token, perhaps none. -/
def itemsUntil {α : Type} (n : Nat) (item : Parser α) (close : Token.Kind) (expected : String) :
    Parser (List α) := do
  let list ← (do if (← look).kind = close then pure [] else items n item)
  let _ ← expect close expected
  pure list

/-- A name, with what to say where there is none. -/
def name (expected : String) : Parser Ident := do
  let t ← expect .identifier expected
  pure ⟨t.position, t.lexeme⟩

end Parser

end Easel
