import Easel.Command.Style
import Easel.Diagnostic
import Easel.Host.Access

/-!
# Terminals

A command writes to two streams and can show a page in a browser. Any monad that offers this will
do; a `Desktop` offers it, with a host, in the state monad. A `Console` says how a command writes:
from which directory it names files, whether in colors, and how much it logs.
-/

namespace Easel.Command

/-- The streams and the browser of a terminal. -/
class Terminal (m : Type → Type) where
  writeOut : String → m Unit
  writeErr : String → m Unit
  /-- Show a page; the result says what went wrong, if anything did. -/
  openPage : String → m (Option String)

/-- A host with what was written and the pages that were shown. -/
structure Desktop where
  host : Host := {}
  out : String := ""
  err : String := ""
  opened : List String := []
  /-- Why pages cannot be shown, if they cannot. -/
  browserError : Option String := none

/-- An operation on the host of a desktop. -/
def Desktop.onHost {α : Type} (f : StateM Host α) : StateM Desktop α := fun d =>
  let (a, h) := f d.host
  (a, { d with host := h })

instance : HostAccess (StateM Desktop) where
  stat path := Desktop.onHost (HostAccess.stat path)
  readFile path := Desktop.onHost (HostAccess.readFile path)
  writeFile path data := Desktop.onHost (HostAccess.writeFile path data)
  makeDirs path := Desktop.onHost (HostAccess.makeDirs path)
  remove path := Desktop.onHost (HostAccess.remove path)

instance : Terminal (StateM Desktop) where
  writeOut text := fun d => ((), { d with out := d.out ++ text })
  writeErr text := fun d => ((), { d with err := d.err ++ text })
  openPage page := fun d => (d.browserError, { d with opened := d.opened ++ [page] })

/-- How a command writes. -/
structure Console where
  /-- The working directory, an absolute path. -/
  directory : RawText
  /-- Whether messages are colored. -/
  colored : Bool := false
  /-- Whether log lines are colored. -/
  coloredLog : Bool := true
  /-- Whether every log line is shown, and not only warnings. -/
  verbose : Bool := false
  /-- The time of log lines. -/
  time : String := "12:00AM"

/-- Why a command ends early. -/
inductive Stop where
  /-- The command was called in a way it cannot be. -/
  | usage (message : String)
  /-- What went wrong has been said. -/
  | failed
  | error (message : String)
  deriving DecidableEq, Repr

/-- A number of things by name. -/
def plural (n : Nat) (word : String) : String := if n = 1 then s!"1 {word}" else s!"{n} {word}s"

namespace Console

/-- The absolute path of an argument. -/
def path (c : Console) (p : RawText) : RawText := Path.resolve c.directory p

/-- The text `s` without `start` at its front, if it is there. -/
def dropStart (start s : List Text.Glyph) : Option (List Text.Glyph) :=
  if start.isPrefixOf s then some (s.drop start.length) else none

/-- A path as messages show it: from the working directory, if it lies below it. -/
def relative (c : Console) (p : RawText) : String :=
  match dropStart (c.directory ++ "/").glyphs p.glyphs with
  | some rest => RawText.text ⟨rest⟩
  | none => p.text

variable {m : Type → Type} [Monad m] [Terminal m]

/-- Write a log line, if it matters enough. -/
def log (c : Console) (l : LogLine) : m Unit :=
  if c.verbose || l.level == .warn then Terminal.writeErr (l.print c.coloredLog c.time) else pure ()

def logAll (c : Console) : List LogLine → m Unit
  | [] => pure ()
  | l :: rest => do
    c.log l
    c.logAll rest

/-- Say that something was done. -/
def status (c : Console) (text : String) : m Unit :=
  Terminal.writeOut (paint c.colored .success "✓ " ++ text ++ "\n")

/-- Say what went wrong. -/
def complain (c : Console) (text : String) : m Unit :=
  Terminal.writeErr (paint c.colored .failure "error: " ++ text ++ "\n")

/-- A diagnostic of a file: where, what, and the source line. -/
def diagnosticText (c : Console) (file : RawText) (d : Diagnostic) : String :=
  paint c.colored .location s!"{c.relative file}:{d.line}:{d.column}: " ++
    paint c.colored .failure "error: " ++ d.describe ++ "\n" ++
    if d.snippet.isEmpty then "" else paint c.colored .faint ("    | " ++ d.snippet ++ "\n")

/-- Say what is wrong with a file. -/
def rejectFile (c : Console) (file : RawText) (ds : List Diagnostic) : m Unit :=
  Terminal.writeErr (String.join (ds.map (c.diagnosticText file)) ++
    paint c.colored .failure ("✗ " ++ c.relative file ++ ": " ++ plural ds.length "error" ++ "\n"))

end Console

end Easel.Command
