import Easel.Text.Basic

/-!
# Diagnostics

A diagnostic is a message about a place in a source text, with the line it is about once that is
known.
-/

namespace Easel

/-- Whether the text cannot be read, or reads but misuses a name. -/
inductive Diagnostic.Kind where
  | parse | semantic
  deriving DecidableEq, Repr

/-- A message about a place in a source text. -/
structure Diagnostic where
  kind : Diagnostic.Kind
  line : Int
  column : Int
  message : String
  /-- The source line without the blanks around it. -/
  snippet : String := ""
  deriving DecidableEq, Repr

namespace Diagnostic

namespace Kind

def name : Kind → String
  | parse => "Parse"
  | semantic => "Semantic"

/-- The kind with a given code number. -/
def ofCode (n : Int) : Kind := if n = 1 then semantic else parse

end Kind

/-- The diagnostic in one line. -/
def describe (d : Diagnostic) : String :=
  s!"{d.kind.name} error at line {d.line}, column {d.column}: {d.message}"

/-- The lines of a text: the pieces between line feeds. -/
def linesOf (source : String) : List String :=
  (source.toList.splitOn '\n').map String.ofList

/-- The line with a given number, without the blanks around it; empty if there is none. -/
def snippetAt (lines : List String) (line : Int) : String :=
  if 1 ≤ line then ((lines[line.toNat - 1]?).map Text.trim).getD "" else ""

/-- The diagnostics with the source lines they are about. -/
def withSnippets (source : String) (ds : List Diagnostic) : List Diagnostic :=
  let lines := linesOf source
  ds.map fun d => { d with snippet := snippetAt lines d.line }

end Diagnostic

end Easel
