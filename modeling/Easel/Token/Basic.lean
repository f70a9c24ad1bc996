import Easel.Position
import Easel.Text.Quoted
import Easel.Vocabulary

/-!
# Tokens

A token is a piece of a source text with its kind and its place. Its `lexeme` is what the piece
stands for: a string literal stands for the text between its quotes, everything else for itself.
-/

namespace Easel

/-- What a piece of source text is. -/
inductive Token.Kind where
  | eof | identifier | number | string | color
  | keyword (word : Keyword)
  | shape (kind : ShapeKind)
  | command (kind : CommandKind)
  | lbrace | rbrace | lparen | rparen | lbracket | rbracket
  | dot | comma | colon | semicolon
  | operator (op : BinaryOp)
  | assign
  | newline | comment | unknown
  deriving DecidableEq, Repr

/-- A piece of source text: its kind, its characters, where it starts and how many characters
precede it. -/
structure Token where
  kind : Token.Kind
  text : String
  position : Position
  offset : Nat
  deriving DecidableEq, Repr

namespace Token

namespace Kind

/-- Every kind, in the order of the code numbers. -/
def all : List Kind :=
  [eof, identifier, number, string, color] ++ Keyword.all.map keyword ++ ShapeKind.all.map shape ++
  CommandKind.all.map command ++
  [lbrace, rbrace, lparen, rparen, lbracket, rbracket, dot, comma, colon, semicolon,
    operator .add, operator .sub, operator .mul, operator .div, operator .mod, assign,
    operator .eq, operator .ne, operator .lt, operator .le, operator .gt, operator .ge,
    newline, comment, unknown]

/-- The name of a kind, in capitals. -/
def name : Kind → String
  | eof => "EOF"
  | identifier => "IDENTIFIER"
  | number => "NUMBER"
  | string => "STRING"
  | color => "COLOR"
  | keyword word => word.spelling.toUpper
  | shape kind => kind.spelling.toUpper
  | command kind => kind.spelling.toUpper
  | lbrace => "LBRACE"
  | rbrace => "RBRACE"
  | lparen => "LPAREN"
  | rparen => "RPAREN"
  | lbracket => "LBRACKET"
  | rbracket => "RBRACKET"
  | dot => "DOT"
  | comma => "COMMA"
  | colon => "COLON"
  | semicolon => "SEMICOLON"
  | operator .add => "PLUS"
  | operator .sub => "MINUS"
  | operator .mul => "STAR"
  | operator .div => "SLASH"
  | operator .mod => "PERCENT"
  | assign => "ASSIGN"
  | operator .eq => "EQUALS"
  | operator .ne => "NOT_EQ"
  | operator .lt => "LESS"
  | operator .le => "LESS_EQ"
  | operator .gt => "GREATER"
  | operator .ge => "GREATER_EQ"
  | newline => "NEWLINE"
  | comment => "COMMENT"
  | unknown => "UNKNOWN"

/-- The code number of a kind. -/
def code (k : Kind) : Nat := all.idxOf k

/-- The name of the kind with a given code number, or the number itself if there is none. -/
def nameOfCode (n : Int) : String :=
  match (if 0 ≤ n then all[n.toNat]? else none) with
  | some k => k.name
  | none => s!"TokenType({n})"

end Kind

/-- The value of a string literal's characters: an escaped quote loses its backslash, and every
other escape is kept as written. -/
def unescape : List Char → List Char
  | [] => []
  | '\\' :: '"' :: rest => '"' :: unescape rest
  | '\\' :: c :: rest => '\\' :: c :: unescape rest
  | c :: rest => c :: unescape rest

/-- What the token stands for. -/
def lexeme (t : Token) : String :=
  match t.kind with
  | .string => String.ofList (unescape (t.text.toList.drop 1).dropLast)
  | .newline => "\\n"
  | _ => t.text

/-- The number of characters up to the end of the token. -/
def stop (t : Token) : Nat := t.offset + t.text.length

/-- The token a reader sees past the last token. -/
def beyond : Token := ⟨.eof, "", ⟨0, 0⟩, 0⟩

/-- One line that shows the token and its place. -/
def describe (t : Token) : String :=
  s!"{Text.padRight 10 t.kind.name} {Text.padRight 14 (Text.quote t.lexeme)}  " ++
  s!"line {t.position.line} col {t.position.column}"

end Token

end Easel
