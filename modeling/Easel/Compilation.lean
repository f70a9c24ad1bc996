import Easel.LineMap.Basic
import Easel.Program.Parser.Stmt
import Easel.Scope.Analysis
import Easel.Script.Stmt
import Easel.Token.Lexer

/-!
# Compilation

A source is read, its names are analysed, and if neither step finds a fault it becomes a script,
with a line map if one is asked for. Names are analysed only once the text can be read.
-/

namespace Easel

/-- What checking a source found. -/
structure Checkup where
  /-- The number of tokens. -/
  tokens : Nat
  program : Program
  /-- The faults of reading. -/
  faults : List Fault
  /-- The misused names; none if there are faults of reading. -/
  misuses : List NameFault

namespace Checkup

/-- Read and analyse a source. -/
def ofSource (source : String) : Checkup :=
  let tokens := Token.lex source
  let (program, faults) := parse tokens
  let misuses := if faults.isEmpty then (analyze program).2 else []
  ⟨tokens.length, program, faults, misuses⟩

/-- The diagnostics of a source, with the lines they are about. -/
def diagnostics (source : String) (c : Checkup) : List Diagnostic :=
  Diagnostic.withSnippets source <|
    if c.faults.isEmpty then c.misuses.map NameFault.toDiagnostic
    else c.faults.map Fault.toDiagnostic

end Checkup

/-- Every diagnostic of a source. -/
def check (source : String) : List Diagnostic := (Checkup.ofSource source).diagnostics source

/-- How a source is compiled. -/
structure Options extends Script.Style where
  /-- Whether to make a line map. -/
  lineMap : Bool := false
  /-- The source's name in the line map; empty for the default. -/
  sourceName : RawText := ""
  /-- The script's name in the line map and in the line that refers to it; empty for the default. -/
  outputName : RawText := ""
  deriving DecidableEq, Repr

namespace Options

def source (o : Options) : RawText := if o.sourceName.isEmpty then "main.mflow" else o.sourceName

def output (o : Options) : RawText := if o.outputName.isEmpty then "main.js" else o.outputName

end Options

/-- A compiled program: its script and the line map if there is one. -/
structure Build where
  script : String
  map : Option LineMap
  deriving DecidableEq, Repr

namespace Build

/-- The line after a script that refers to its line map. -/
def reference (b : Build) : RawText :=
  match b.map with
  | none => ""
  | some m => "//# sourceMappingURL=" ++ m.file ++ ".map\n"

/-- The whole output: the script and the line that refers to its line map. -/
def output (b : Build) : RawText := b.script ++ b.reference

/-- The content of the output's file. -/
def data (b : Build) : ByteArray := b.script.toUTF8 ++ b.reference.data

end Build

/-- The number of line ends in a text. -/
def lineCount (s : String) : Nat := s.toList.count '\n'

/-- The script of a program, and its line map if one is asked for. -/
def Program.build (o : Options) (p : Program) : Build :=
  let script := p.script o.toStyle
  let text := script.print
  if o.lineMap then
    let entries := script.origins.map fun (n, place) =>
      ((n : Int), (⟨place.line, place.column⟩ : MapPlace))
    ⟨text, some (LineMap.ofEntries o.output o.source entries (lineCount text))⟩
  else ⟨text, none⟩

/-- Compile a source: the diagnostics that stop it, or the script. -/
def compile (o : Options) (source : String) : Except (List Diagnostic) Build :=
  let c := Checkup.ofSource source
  match c.diagnostics source with
  | [] => .ok (c.program.build o)
  | ds => .error ds

end Easel
