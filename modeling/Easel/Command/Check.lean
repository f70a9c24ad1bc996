import Easel.Command.Compile
import Easel.Workspace.Import
import Easel.Layout
import Easel.Outline.Program

/-!
# Checking and formatting files

Checking goes over a file and everything it imports; a file that was seen before is not checked
again. The sources below a directory are read through a workspace, so that a file which several
others import is read once. Formatting shows files in canonical layout or brings them into it.
-/

namespace Easel.Command

variable {m : Type → Type} [Monad m] [HostAccess m] [Terminal m]

/-! ## Sources -/

/-- The workspace with a source that was read. A name that leaves the directory and a file that does
not fit are passed over. -/
def keepSource (name : RawText) (data : ByteArray) (cache : Workspace) : Workspace :=
  match cache.write name data with
  | .ok cache' => cache'
  | .error _ => cache

/-- The text of a file below a directory, read through a workspace. -/
def readSource (root name : RawText) : StateT Workspace m (Except HostError String) := do
  let cache ← get
  match cache.readText name with
  | .ok source => return .ok source
  | .error _ =>
    match ← (HostAccess.readFile (Path.join root name) : m _) with
    | .error e => return .error e
    | .ok data =>
      set (keepSource name data cache)
      return .ok (Text.decode data)

/-! ## Checking -/

/-- The length of a chain of imports that is taken for a cycle. There are fewer paths of the size
that a host takes. -/
@[irreducible]
def importLimit : Nat := Nat.pow 2 (22 * (maxPathSize + 1))

/-- Say what was found in a source. -/
def reportSource (c : Console) (outline : Bool) (file : RawText) (source : String) : m Bool := do
  if outline then
    Terminal.writeOut
      (c.relative file ++ ":\n" ++ (parse (Token.lex source)).1.outline.print ++ "\n")
  match check source with
  | [] => do
    c.log { level := .debug, message := "checked", fields := [("file", c.relative file)] }
    c.status (c.relative file ++ " ok")
    return true
  | ds => do
    c.rejectFile file ds
    return false

/-- Check one file below a directory and say what was found. -/
def checkFile (c : Console) (outline : Bool) (root name : RawText) : StateT Workspace m Bool := do
  match ← readSource root name with
  | .error e =>
    (c.complain e.message : m Unit)
    return false
  | .ok source => (reportSource c outline (Path.join root name) source : m Bool)

/-- Check files that have not been seen: the files seen after that, and whether all are fine. -/
def checkNew (c : Console) (outline : Bool) (root : RawText) :
    List RawText → List RawText → StateT Workspace m (List RawText × Bool)
  | [], seen => pure (seen, true)
  | name :: rest, seen => do
    let file := Path.join root name
    if seen.contains file then checkNew c outline root rest seen
    else
      let ok ← checkFile c outline root name
      let (seen, more) ← checkNew c outline root rest (file :: seen)
      return (seen, ok && more)

/-- What a check keeps: the files it has seen, and the sources it has read below each directory. -/
structure Checked where
  files : List RawText := []
  sources : List (RawText × Workspace) := []

/-- The sources read below a directory. -/
def Checked.below (s : Checked) (root : RawText) : Workspace := (s.sources.lookup root).getD {}

/-- The same with other sources below a directory. -/
def Checked.keep (s : Checked) (root : RawText) (cache : Workspace) : Checked :=
  { s with sources := (root, cache) :: s.sources.filter (fun e => e.1 != root) }

/-- Check a file with everything it imports, and say whether all is fine. -/
def checkInput (c : Console) (outline : Bool) (input : RawText) (s : Checked) :
    m (Checked × Bool) := do
  let root := Path.parent input
  match ← (Import.resolve importLimit (readSource root) (Path.base input)).run (s.below root) with
  | ((.error e, _), cache) => do
    c.complain (c.relative input ++ ": " ++ e.message HostError.message)
    return (s.keep root cache, false)
  | ((.ok names, _), cache) => do
    let ((files, ok), cache) ← (checkNew c outline root names s.files).run cache
    return ({ s with files }.keep root cache, ok)

/-- Check files in turn with everything they import, and say whether all is fine. -/
def checkAll (c : Console) (outline : Bool) : List RawText → Checked → m Bool
  | [], _ => pure true
  | input :: rest, s => do
    let (s, ok) ← checkInput c outline input s
    let more ← checkAll c outline rest s
    return ok && more

/-- The files of a command that does not compile. -/
def prepareInputs (c : Console) (a : Arguments) : ExceptT Stop m (List RawText) := do
  let config ← loadConfig c
  ExceptT.mk (pure (inputs c a config))

/-- Check the files that arguments name. -/
def checkCommand (c : Console) (a : Arguments) : ExceptT Stop m Unit := do
  let files ← prepareInputs c a
  let ok ← (checkAll c (a.switch "ast") files {} : m Bool)
  if !ok then throw .failed

/-! ## Formatting -/

/-- Format one file: show the result, or write it back if it differs. The result says whether the
file could be formatted. -/
def formatFile (c : Console) (write : Bool) (input : RawText) : ExceptT Stop m Bool := do
  match ← (HostAccess.readFile input : m _) with
  | .error e =>
    (c.complain e.message : m Unit)
    return false
  | .ok data =>
    match Layout.format (Text.decode data) with
    | .error e =>
      (c.complain (c.relative input ++ ": " ++ e.message) : m Unit)
      return false
    | .ok text =>
      if !write then
        (Terminal.writeOut text : m Unit)
        return true
      else if text.toUTF8 == data then
        (c.log { level := .debug, message := "already formatted",
                 fields := [("file", c.relative input)] } : m Unit)
        return true
      else
        match ← (HostAccess.writeFile input text.toUTF8 : m _) with
        | .error e => throw (.error s!"writing {c.relative input}: {e.message}")
        | .ok () =>
          (c.status s!"formatted {c.relative input}" : m Unit)
          return true

/-- Format files in turn, and say whether all could be formatted. -/
def formatAll (c : Console) (write : Bool) : List RawText → ExceptT Stop m Bool
  | [] => pure true
  | input :: rest => do
    let ok ← formatFile c write input
    let more ← formatAll c write rest
    return ok && more

/-- Format the files that arguments name. -/
def formatCommand (c : Console) (a : Arguments) : ExceptT Stop m Unit := do
  let files ← prepareInputs c a
  let ok ← formatAll c (a.switch "write") files
  if !ok then throw .failed

end Easel.Command
