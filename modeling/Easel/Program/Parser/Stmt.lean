import Easel.Program.Parser.Command

/-!
# Reading statements

A statement that cannot be read is reported, and reading goes on after the next line end, at the
next keyword that starts a statement, or at the closing brace of the block. `parse` reads a whole
program: it always gives one, with the faults it met.
-/

namespace Easel.Parser

/-- A block: statements between braces. -/
def block (statements : Parser (List Stmt)) (opening closing : String) : Parser (List Stmt) := do
  let _ ← expect .lbrace opening
  let body ← statements
  let _ ← expect .rbrace closing
  pure body

/-- `name = value` after `let`. -/
def bindingAfter (expr : Parser Expr) (p : Position) : Parser Binding := do
  let id ← name "Expected variable name"
  let _ ← expect .assign "Expected = after variable name"
  let value ← expr
  pure ⟨p, id, value⟩

/-- The rest of a function after `fn`. -/
def functionAfter (n : Nat) (statements : Parser (List Stmt)) (p : Position) : Parser Stmt := do
  let id ← name "Expected function name"
  let _ ← expect .lparen "Expected ( after function name"
  let params ← itemsUntil n (name "Expected parameter name") .rparen "Expected ) after parameters"
  let body ← block statements r"Expected { before function body"
    r"Expected } after function body"
  pure (.function p id params body)

/-- The rest of a `return`: its value starts on the same line. -/
def returnAfter (expr : Parser Expr) (p : Position) : Parser Stmt := do
  match (← lookHere).kind with
  | .newline | .rbrace | .semicolon | .eof => pure (.ret p none)
  | _ =>
    let value ← expr
    pure (.ret p (some value))

/-- The rest of an `if`. An `else if` is a nested `if` that is the whole alternative. -/
def ifAfter (expr : Parser Expr) (statements : Parser (List Stmt)) : Nat → Position → Parser Stmt
  | 0, _ => exhausted
  | k + 1, p => do
    let cond ← expr
    let body ← block statements r"Expected { after if condition" r"Expected } after if body"
    if (← look).kind = .keyword .elseKw then
      discard afterNext
      let t ← look
      if t.kind = .keyword .ifKw then
        discard afterNext
        let nested ← ifAfter expr statements k t.position
        pure (.ifElse p cond body [nested])
      else
        let alternative ← block statements r"Expected { after else"
          r"Expected } after else body"
        pure (.ifElse p cond body alternative)
    else pure (.ifThen p cond body)

/-- The rest of a `repeat`. -/
def repeatAfter (expr : Parser Expr) (statements : Parser (List Stmt)) (p : Position) :
    Parser Stmt := do
  let times ← expr
  let body ← block statements r"Expected { after repeat count" r"Expected } after repeat body"
  pure (.repeatLoop p times body)

/-- The rest of a `while`. -/
def whileAfter (expr : Parser Expr) (statements : Parser (List Stmt)) (p : Position) :
    Parser Stmt := do
  let cond ← expr
  let body ← block statements r"Expected { after while condition" r"Expected } after while body"
  pure (.whileLoop p cond body)

/-- The first clause of a `for`, if there is one. -/
def initClause (expr : Parser Expr) : Parser (Option Init) := do
  let t ← look
  match t.kind with
  | .semicolon => pure none
  | .keyword .letKw =>
    discard afterNext
    let b ← bindingAfter expr t.position
    pure (some (.binding b))
  | _ =>
    let e ← expr
    pure (some (.expr e))

/-- The last clause of a `for`, if there is one. -/
def updateClause (expr : Parser Expr) : Parser (Option Expr) := do
  if (← look).kind = .rparen then pure none
  else
    let e ← expr
    pure (some e)

/-- The rest of a `for`. -/
def forAfter (expr : Parser Expr) (statements : Parser (List Stmt)) (p : Position) :
    Parser Stmt := do
  let _ ← expect .lparen "Expected ( after for"
  let init ← initClause expr
  let _ ← expect .semicolon "Expected ; after for initializer"
  let cond ← expr
  let _ ← expect .semicolon "Expected ; after for condition"
  let update ← updateClause expr
  let _ ← expect .rparen "Expected ) after for clauses"
  let body ← block statements r"Expected { after for" r"Expected } after for body"
  pure (.forLoop p init cond update body)

/-- The names of an import with the word after them; without names the path follows at once. -/
def importedNames (n : Nat) : Parser (List Ident) := do
  if (← look).kind = .string then pure []
  else
    let names ← items n (name "Expected imported name")
    expectWord "from" "Expected \"from\" after imported names"
    pure names

/-- The rest of an `import`. -/
def importAfter (n : Nat) (p : Position) : Parser Stmt := do
  let names ← importedNames n
  let path ← expect .string "Expected module path string"
  pure (.importFrom p names path.lexeme)

/-- The rest of a `scene`. -/
def sceneAfter (statements : Parser (List Stmt)) (p : Position) : Parser Stmt := do
  let id ← name "Expected scene name"
  let body ← block statements r"Expected { after scene name" r"Expected } after scene body"
  pure (.scene p id.name body)

/-- The rest of an `animate`. -/
def animateAfter (n : Nat) (expr : Parser Expr) (p : Position) : Parser Stmt := do
  let _ ← expect .lbrace r"Expected { after animate"
  let list ← commands n expr n
  let _ ← expect .rbrace r"Expected } after animate block"
  pure (.animate p list)

/-- The rest of a statement after the keyword it starts with; other keywords start none. -/
def keywordStatement? (n : Nat) (expr : Parser Expr) (statements : Parser (List Stmt))
    (p : Position) : Keyword → Option (Parser Stmt)
  | .letKw => some do
    let b ← bindingAfter expr p
    pure (.binding b)
  | .fnKw => some (functionAfter n statements p)
  | .returnKw => some (returnAfter expr p)
  | .ifKw => some (ifAfter expr statements n p)
  | .repeatKw => some (repeatAfter expr statements p)
  | .whileKw => some (whileAfter expr statements p)
  | .forKw => some (forAfter expr statements p)
  | .importKw => some (importAfter n p)
  | .sceneKw => some (sceneAfter statements p)
  | .animateKw => some (animateAfter n expr p)
  | .elseKw | .trueKw | .falseKw | .nullKw => none

/-- An expression as a statement. -/
def exprStatement (expr : Parser Expr) : Parser Stmt := do
  let e ← expr
  pure (.expr e)

/-- A statement without the semicolon after it. -/
def bareStatement (n : Nat) (expr : Parser Expr) (statements : Parser (List Stmt)) :
    Parser Stmt := do
  let t ← look
  match t.kind with
  | .keyword word =>
    match keywordStatement? n expr statements t.position word with
    | some after =>
      discard afterNext
      after
    | none => exprStatement expr
  | _ => exprStatement expr

/-- A statement, with the semicolon after it if there is one. -/
def statement (n : Nat) (expr : Parser Expr) (statements : Parser (List Stmt)) : Parser Stmt := do
  let s ← bareStatement n expr statements
  skipOptional .semicolon
  pure s

/-- Whether the statements of a block or of a program end at a token of this kind. -/
def endsStatements (inBlock : Bool) : Token.Kind → Bool
  | .eof => true
  | .rbrace => inBlock
  | _ => false

/-- Where reading goes on once a first token is passed. -/
def resumeWithin (inBlock : Bool) : List Token → List Token
  | [] => []
  | t :: rest =>
    match t.kind with
    | .eof => t :: rest
    | .newline => significant rest
    | .rbrace => if inBlock then t :: rest else resumeWithin inBlock rest
    | .keyword word => if word.startsStatement then t :: rest else resumeWithin inBlock rest
    | _ => resumeWithin inBlock rest

/-- Where reading goes on after a statement that could not be read. -/
def resume (inBlock : Bool) : List Token → List Token
  | [] => []
  | t :: rest =>
    match t.kind with
    | .newline => significant rest
    | .eof => t :: rest
    | .rbrace => if inBlock then t :: rest else resumeWithin inBlock rest
    | _ => resumeWithin inBlock rest

/-- Statement after statement up to the end of the block or program. -/
def statementList (inBlock : Bool) (one : Parser Stmt) : Nat → Parser (List Stmt)
  | 0 => pure []
  | k + 1 => do
    if endsStatements inBlock (← look).kind then pure []
    else
      skipLineEnds
      match ← attempt one with
      | .ok s =>
        let rest ← statementList inBlock one k
        pure (s :: rest)
      | .error fault =>
        report fault
        discard (resume inBlock)
        statementList inBlock one k

/-- Statements nested at most `n` deep. -/
def statementsWithin : Nat → Bool → Parser (List Stmt)
  | 0, _ => pure []
  | n + 1, inBlock =>
    statementList inBlock (statement n (expressionWithin (n + 1)) (statementsWithin n true)) n

end Easel.Parser

namespace Easel

/-- The program the tokens spell, and the faults met on the way. -/
def parse (ts : List Token) : Program × List Fault :=
  let o := Parser.statementsWithin (ts.length + 2) false ts
  (o.result.toOption.getD [], o.reported)

end Easel
