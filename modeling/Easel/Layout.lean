import Easel.Token.Lexer

/-!
# The layout of source texts

In canonical layout a line is indented by two blanks for each bracket open at its start, tokens that
were apart are one blank apart, there is no blank inside round and square brackets or before commas
and semicolons, and at most one empty line in a row. A text with a character that is part of no
token has no layout.
-/

namespace Easel.Layout

/-- A token that belongs to no text in canonical layout. -/
structure Error where
  token : Token
  deriving DecidableEq, Repr

def Error.message (e : Error) : String :=
  s!"line {e.token.position.line}, column {e.token.position.column}: " ++
    "cannot format " ++ Text.quote e.token.lexeme

/-- Whether a token opens a bracket. -/
def opens : Token.Kind → Bool
  | .lbrace | .lparen | .lbracket => true
  | _ => false

/-- Whether a token closes a bracket. -/
def closes : Token.Kind → Bool
  | .rbrace | .rparen | .rbracket => true
  | _ => false

/-- Whether two neighbouring tokens of a line stand apart. -/
def apart (first second : Token) : Bool :=
  if first.kind = .comma then true
  else match first.kind with
    | .lparen | .lbracket | .dot => false
    | _ =>
      match second.kind with
      | .comma | .semicolon | .dot | .rparen | .rbracket => false
      | .lbrace | .comment => true
      | _ => first.stop < second.offset

/-- The tokens of each line: the pieces between line ends. -/
def tokenLines (ts : List Token) : List (List Token) :=
  (ts.filter (fun t => t.kind != .eof)).splitOnP (fun t => t.kind == .newline)

/-- The tokens of a line after its first, with the blanks between them. -/
def joinTokens (before : Token) : List Token → List Char
  | [] => []
  | t :: rest =>
    (if apart before t then [' '] else []) ++ t.text.toList ++ joinTokens t rest

/-- The text of a line without its indentation. -/
def lineText : List Token → List Char
  | [] => []
  | t :: rest => t.text.toList ++ joinTokens t rest

/-- The number of open brackets after a token. A bracket that closes nothing is ignored. -/
def depthAfter (depth : Nat) (t : Token) : Nat :=
  if opens t.kind then depth + 1 else if closes t.kind then depth - 1 else depth

/-- The indentation of a line: the brackets that close at its start are taken off. -/
def indentation (depth : Nat) (line : List Token) : Nat :=
  depth - (line.takeWhile (fun t => closes t.kind)).length

/-- The lines from some line on. `depth` counts the open brackets, and `gap` says whether an empty
line is due before the next one. -/
def arrange (depth : Nat) (started gap : Bool) : List (List Token) → List Char
  | [] => []
  | [] :: rest => arrange depth started started rest
  | line :: rest =>
    (if gap then ['\n'] else []) ++
      List.replicate (2 * indentation depth line) ' ' ++ lineText line ++ '\n' ::
      arrange (line.foldl depthAfter depth) true false rest

/-- The source in canonical layout. -/
def format (source : String) : Except Error String :=
  let ts := Token.lexWithComments source
  match ts.find? (fun t => t.kind == .unknown) with
  | some t => .error ⟨t⟩
  | none => .ok (String.ofList (arrange 0 false false (tokenLines ts)))

end Easel.Layout
