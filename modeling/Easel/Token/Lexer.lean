import Easel.Text.Letter
import Easel.Token.Basic

/-!
# Splitting a source text into tokens

`scan` finds the lexeme that starts at a character, `lexemes` cuts a text into lexemes, and `place`
gives each its position. `lex` reads a text in one pass and drops its comments. Every text has tokens:
what is no other token is an `unknown` one.
-/

namespace Easel.Token

open Text

/-- A piece of the source text; blanks between tokens have no kind. -/
structure Lexeme where
  kind : Option Kind
  text : List Char
  deriving DecidableEq, Repr

/-- A character that may continue a word. -/
def isWordChar (c : Char) : Bool := isLetter c || isDigit c || c == '_'

/-- The reserved words with the kinds of their tokens. -/
def reserved : List (String × Kind) :=
  Keyword.all.map (fun w => (w.spelling, .keyword w)) ++
  ShapeKind.all.map (fun s => (s.spelling, .shape s)) ++
  CommandKind.all.map (fun c => (c.spelling, .command c))

/-- The kind of a word. -/
def wordKind (word : List Char) : Kind :=
  (reserved.lookup (String.ofList word)).getD .identifier

/-- The characters of a block comment after its opening, with its end if it has one, and whether it
has. -/
def blockComment : List Char → List Char × Bool
  | [] => ([], false)
  | '*' :: '/' :: _ => (['*', '/'], true)
  | c :: rest =>
    let (text, closed) := blockComment rest
    (c :: text, closed)

/-- The characters of a string literal after its opening quote, with the closing one if it stands
on the same line, and whether it does. -/
def stringBody : List Char → List Char × Bool
  | [] => ([], false)
  | '\n' :: _ => ([], false)
  | '"' :: _ => (['"'], true)
  | '\\' :: '\n' :: _ => (['\\'], false)
  | '\\' :: c :: rest =>
    let (text, closed) := stringBody rest
    ('\\' :: c :: text, closed)
  | c :: rest =>
    let (text, closed) := stringBody rest
    (c :: text, closed)

/-- The characters of a number after its first digit: digits, and a fraction only if a digit
follows the point. -/
def numberTail (cs : List Char) : List Char :=
  let whole := cs.takeWhile isAsciiDigit
  match cs.dropWhile isAsciiDigit with
  | '.' :: d :: rest =>
    if isAsciiDigit d then whole ++ '.' :: d :: rest.takeWhile isAsciiDigit else whole
  | _ => whole

/-- The kind of a character that is a token by itself. -/
def punctuation : Char → Kind
  | '{' => .lbrace
  | '}' => .rbrace
  | '(' => .lparen
  | ')' => .rparen
  | '[' => .lbracket
  | ']' => .rbracket
  | '.' => .dot
  | ',' => .comma
  | ':' => .colon
  | ';' => .semicolon
  | '+' => .operator .add
  | '-' => .operator .sub
  | '*' => .operator .mul
  | '/' => .operator .div
  | '%' => .operator .mod
  | '=' => .assign
  | '<' => .operator .lt
  | '>' => .operator .gt
  | _ => .unknown

/-- The kind of a character followed by an equals sign, where the two are one token. -/
def withEquals? : Char → Option Kind
  | '=' => some (.operator .eq)
  | '!' => some (.operator .ne)
  | '<' => some (.operator .le)
  | '>' => some (.operator .ge)
  | _ => none

/-- A token of one character, or of two if the second is an equals sign that belongs to it. -/
def symbol (c : Char) : List Char → Lexeme
  | '=' :: _ =>
    match withEquals? c with
    | some kind => ⟨some kind, [c, '=']⟩
    | none => ⟨some (punctuation c), [c]⟩
  | _ => ⟨some (punctuation c), [c]⟩

/-- A comment or a slash. -/
def slash : List Char → Lexeme
  | '/' :: rest => ⟨some .comment, '/' :: '/' :: rest.takeWhile (· != '\n')⟩
  | '*' :: rest =>
    let (text, closed) := blockComment rest
    ⟨some (if closed then .comment else .unknown), '/' :: '*' :: text⟩
  | rest => symbol '/' rest

/-- The lexeme that starts at the character `c` before `cs`. -/
def scan (c : Char) (cs : List Char) : Lexeme :=
  if c = '\n' then ⟨some .newline, [c]⟩
  else if isBlank c then ⟨none, c :: cs.takeWhile (fun d => d != '\n' && isBlank d)⟩
  else if c = '/' then slash cs
  else if isLetter c || c == '_' then
    let word := c :: cs.takeWhile isWordChar
    ⟨some (wordKind word), word⟩
  else if isAsciiDigit c then ⟨some .number, c :: numberTail cs⟩
  else if c = '"' then
    let (text, closed) := stringBody cs
    ⟨some (if closed then .string else .unknown), c :: text⟩
  else if c = '#' then
    match cs.takeWhile (fun d => isAsciiDigit d || isLetter d) with
    | [] => ⟨some .unknown, [c]⟩
    | name => ⟨some .color, c :: name⟩
  else symbol c cs

/-- The lexemes of a text after its first `skip` characters. -/
def lexemesFrom : Nat → List Char → List Lexeme
  | _, [] => []
  | skip + 1, _ :: cs => lexemesFrom skip cs
  | 0, c :: cs =>
    let l := scan c cs
    l :: lexemesFrom (l.text.length - 1) cs

/-- The lexemes of a text, blanks included. -/
def lexemes (cs : List Char) : List Lexeme := lexemesFrom 0 cs

/-- The tokens of consecutive lexemes from a place on, closed by the end of the text. -/
def place : Cursor → List Lexeme → List Token
  | k, [] => [⟨.eof, "", k.position, k.offset⟩]
  | k, l :: rest =>
    match l.kind with
    | some kind =>
      ⟨kind, String.ofList l.text, k.position, k.offset⟩ :: place (k.advance l.text) rest
    | none => place (k.advance l.text) rest

/-- The tokens of a source text, comments included. -/
def lexWithComments (source : String) : List Token := place .start (lexemes source.toList)

/-- The tokens of a text from a place on, where `skip` characters of the piece before are still to
pass. A comment is passed like a blank. -/
def codeFrom : Cursor → Nat → List Char → List Token
  | k, _, [] => [⟨.eof, "", k.position, k.offset⟩]
  | k, skip + 1, c :: cs => codeFrom (k.step c) skip cs
  | k, 0, c :: cs =>
    let l := scan c cs
    match l.kind with
    | none | some .comment => codeFrom (k.step c) (l.text.length - 1) cs
    | some kind =>
      ⟨kind, String.ofList l.text, k.position, k.offset⟩ ::
        codeFrom (k.step c) (l.text.length - 1) cs

/-- The tokens of a source text without its comments. -/
def lex (source : String) : List Token := codeFrom .start 0 source.toList

end Easel.Token
