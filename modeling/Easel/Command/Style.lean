import Easel.Text.Quoted

/-!
# Colored text and log lines

Text for a terminal is colored by codes around it. A log line is the time, a level, a message, and
fields in alphabetical order except that an error comes first.
-/

namespace Easel.Command

/-- The codes of a style. -/
abbrev Codes := String

namespace Codes

def success : Codes := "32;1"
def failure : Codes := "31;1"
def location : Codes := "1"
def faint : Codes := "2"

end Codes

/-- The text in a style, if colors are on. -/
def paint (colored : Bool) (codes : Codes) (text : String) : String :=
  if colored then "\x1b[" ++ codes ++ "m" ++ text ++ "\x1b[0m" else text

/-! ## Log lines -/

/-- How much a log line matters. -/
inductive LogLevel where
  | debug | info | warn
  deriving DecidableEq, Repr

def LogLevel.name : LogLevel → String
  | .debug => "DBG"
  | .info => "INF"
  | .warn => "WRN"

def LogLevel.codes : LogLevel → Codes
  | .debug => "33"
  | .info => "32"
  | .warn => "31"

/-- A log line. -/
structure LogLine where
  level : LogLevel
  message : String
  /-- What went wrong. -/
  error : Option String := none
  /-- Names and values, by name. -/
  fields : List (String × String) := []
  deriving DecidableEq, Repr

/-- Whether a value stands for itself in a log line. -/
def isPlainValue (s : String) : Bool :=
  s.toList.all fun c => 0x21 ≤ c.toNat && c.toNat ≤ 0x7e && c != '\\' && c != '"'

/-- A text in a log line. -/
def logText (s : String) : String := if isPlainValue s then s else Text.quote s

/-- The name of a field in a log line. -/
def fieldName (colored : Bool) (name : String) : String := paint colored "36" (name ++ "=")

/-- A log line at a time. -/
def LogLine.print (colored : Bool) (time : String) (l : LogLine) : String :=
  let error := match l.error with
    | some e => [fieldName colored "error" ++ paint colored "31" (logText e)]
    | none => []
  let fields := l.fields.map fun (name, value) => fieldName colored name ++ logText value
  String.intercalate " "
    ([paint colored "90" time, paint colored l.level.codes l.level.name, l.message] ++ error ++
      fields) ++ "\n"

end Easel.Command
