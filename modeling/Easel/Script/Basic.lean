import Easel.Position

/-!
# Scripts

A script is a sequence of items: pieces of code, the names a program reads and declares, the scopes
they live in, and the layout around them. An item knows how deep it is indented and which source
construct it comes from. A line takes both from the first item that writes text on it. Without
layout, comments, blank lines and indentation are left out and nothing else changes.
-/

namespace Easel

/-- Who chose a declared name: the program, or the pattern its construct is written by. -/
inductive Script.Owner where
  | program | pattern
  deriving DecidableEq, Repr

/-- What an item contributes. -/
inductive Script.Content where
  /-- Text of the pattern a construct is written by. -/
  | code (text : String)
  /-- A name of the program where it is read or assigned, as the script spells it. -/
  | use (name spelling : String)
  /-- A name where it is declared. -/
  | bind (name : String) (owner : Script.Owner)
  /-- The start of a scope of the script. -/
  | enter
  /-- The end of the innermost scope. -/
  | leave
  | lineEnd
  /-- A comment on a line of its own, with its slashes. -/
  | comment (text : String)
  | blankLine
  deriving DecidableEq, Repr

/-- A piece of a script with its indentation and origin. -/
structure Script.Item where
  content : Script.Content
  indent : Nat := 0
  origin : Option Position := none
  deriving DecidableEq, Repr

/-- A sequence of items. -/
abbrev Script := List Script.Item

/-- A line of a script. -/
structure Script.Line where
  indent : Nat := 0
  origin : Option Position := none
  text : String := ""
  deriving DecidableEq, Repr

namespace Script

/-! ## Building scripts -/

def code (text : String) : Script := [{ content := .code text }]

def use (name spelling : String) : Script := [{ content := .use name spelling }]

def bind (name : String) (owner : Owner) : Script := [{ content := .bind name owner }]

def lineEnd : Script := [{ content := .lineEnd }]

/-- A line of code. -/
def line (text : String) : Script := code text ++ lineEnd

def comment (text : String) : Script := [{ content := .comment ("// " ++ text) }]

def blankLine : Script := [{ content := .blankLine }]

/-- A scope around a script. -/
def inScope (s : Script) : Script := { content := .enter } :: (s ++ [{ content := .leave }])

/-- The script one level deeper. -/
def indented (s : Script) : Script := s.map fun i => { i with indent := i.indent + 1 }

/-- The script as it comes from a place, except where it already has an origin. -/
def comingFrom (p : Position) (s : Script) : Script :=
  s.map fun i => { i with origin := i.origin.or (some p) }

/-- Scripts with a comma between them. -/
def commaSeparated : List Script → Script
  | [] => []
  | [s] => s
  | s :: rest => s ++ code ", " ++ commaSeparated rest

/-- The number of blanks a text starts with. -/
def leadingBlanks (cs : List Char) : Nat := (cs.takeWhile (· == ' ')).length

/-- One line of a fixed text: two leading blanks are one level of indentation. -/
def ofTextLine (cs : List Char) : Script :=
  match cs.dropWhile (· == ' ') with
  | [] => blankLine
  | trimmed =>
    let text := String.ofList trimmed
    let level := leadingBlanks cs / 2
    if text.startsWith "//" then [{ content := .comment text, indent := level }]
    else [{ content := .code text, indent := level }, { content := .lineEnd }]

/-- A fixed text, line by line. -/
def ofText (text : String) : Script :=
  let cs := text.toList
  let body := if cs.getLast? = some '\n' then cs.dropLast else cs
  (body.splitOn '\n').flatMap ofTextLine

/-! ## From items to lines -/

/-- Whether an item is layout only. -/
def Item.isLayout (i : Item) : Bool :=
  match i.content with
  | .comment _ | .blankLine => true
  | _ => false

/-- The text an item writes on its line. -/
def Content.text : Content → String
  | .code text | .use _ text | .bind text _ | .comment text => text
  | .enter | .leave | .lineEnd | .blankLine => ""

/-- The line after one more item writes on it: its first text starts it. -/
def Item.writeOn (i : Item) (current : Option Line) : Option Line :=
  if i.content.text.isEmpty then current
  else match current with
    | some l => some { l with text := l.text ++ i.content.text }
    | none => some ⟨i.indent, i.origin, i.content.text⟩

/-- Whether an item ends the line it stands on. -/
def Item.endsLine (i : Item) : Bool :=
  match i.content with
  | .lineEnd | .comment _ | .blankLine => true
  | _ => false

/-- The complete lines of a script after the unfinished line `current`. -/
def linesFrom : Option Line → Script → List Line
  | _, [] => []
  | current, i :: rest =>
    if i.endsLine then ((i.writeOn current).getD {}) :: linesFrom none rest
    else linesFrom (i.writeOn current) rest

/-- The lines of a script. -/
def lines (s : Script) : List Line := linesFrom none s

/-- The script without its layout. -/
def compact (s : Script) : Script :=
  (s.filter (fun i => !i.isLayout)).map fun i => { i with indent := 0 }

/-- The line with its indentation. -/
def Line.print (l : Line) : String :=
  String.ofList (List.replicate (2 * l.indent) ' ') ++ l.text ++ "\n"

/-- The text of a script. -/
def print (s : Script) : String := String.join (s.lines.map Line.print)

/-- The numbers of the lines that have an origin, with their origins. -/
def origins (s : Script) : List (Nat × Position) :=
  (s.lines.zipIdx 1).filterMap fun (l, n) => l.origin.map fun p => (n, p)

end Script

end Easel
