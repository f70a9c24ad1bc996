import Easel.Command.Job
import Easel.Outline.Program

/-!
# Inspecting a source

An inspection shows every stage of compiling a source: its tokens, its outline, its global symbols
and its script. It ends with the first stage that finds a fault.
-/

namespace Easel.Command

/-- What an inspection shows. -/
structure Inspection where
  status : Nat
  /-- What is shown before the script. -/
  out : String
  /-- The script, if there is one. -/
  script : String := ""
  err : String := ""
  deriving DecidableEq, Repr

/-- The source that is inspected if none is given. -/
def sampleSource : String := Text.unlines [
  "let size = 40",
  "circle at (100, 100) size size color #F5A623",
  r"animate {",
  "  rotate 2",
  r"}"]

/-- Diagnostics, each on a line. -/
def diagnosticLines (ds : List Diagnostic) : String :=
  String.join (ds.map fun d => d.describe ++ "\n")

/-- The source and its tokens. -/
def tokenReport (source : String) (ts : List Token) : String :=
  "Source:\n" ++ source ++ "\nTokens (" ++ toString ts.length ++ ")\n" ++
    String.join (ts.map fun t => "  " ++ t.describe ++ "\n") ++ "\n"

/-- Inspect a source. The faults of reading are logged as well as shown, and their log lines have no
time. -/
def inspect (source : String) : Inspection :=
  let ts := Token.lex source
  let (program, faults) := parse ts
  let read := tokenReport source ts ++ "AST\n" ++ program.outline.print ++ "\n\n"
  if !faults.isEmpty then
    let ds := faults.map Fault.toDiagnostic
    { status := 1, out := read,
      err := String.join (ds.map fun d => (diagnosticLog .warn d).print true "<nil>") ++
        diagnosticLines ds }
  else
    let (table, misuses) := analyze program
    let analysed := read ++ "Symbols\n" ++ table.describe ++ "\n"
    if !misuses.isEmpty then
      { status := 1, out := analysed, err := diagnosticLines (misuses.map NameFault.toDiagnostic) }
    else
      { status := 0, out := analysed ++ "Generated JavaScript\n", script := generate {} program }

end Easel.Command
