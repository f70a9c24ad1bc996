import Easel.Command.Flags
import Easel.Command.Terminal
import Easel.Project.Config
import Easel.Workspace.Sync

/-!
# Compile jobs

A job compiles one file and says where its script goes. Flags override the configuration of the
project. A build that succeeds writes the script and its line map, and removes a line map that an
earlier build left if it has none; what has not changed is not written again.
-/

namespace Easel.Command

/-- One file to compile. -/
structure Job where
  input : RawText
  output : RawText
  options : Options
  deriving DecidableEq, Repr

/-! ## Flags -/

/-- The flags of every command. -/
def commonFlags : List Flag := [
  { name := "verbose", short := some 'v', kind := .switch,
    summary := "verbose logging and error messages" },
  { name := "no-color", kind := .switch, summary := "disable colored output" }]

/-- The flags of every command that compiles. -/
def compileFlags : List Flag := commonFlags ++ [
  { name := "output", short := some 'o', kind := .text, summary := "output file path" },
  { name := "minify", short := some 'm', kind := .switch, summary := "minify output JavaScript" },
  { name := "sourcemap", short := some 's', kind := .switch,
    summary := "generate a source map next to the output" },
  { name := "canvas", kind := .text, summary := "target canvas element id" },
  { name := "fps", kind := .number, summary := "animation frame rate" }]

/-! ## From arguments to jobs -/

/-- The files a command works on: those named, or the entry of the project. -/
def inputs (c : Console) (a : Arguments) (config : Option Config) : Except Stop (List RawText) :=
  match a.files, config with
  | [], none => .error (.usage ("no input file and no " ++ Config.fileName))
  | [], some config => .ok [c.path config.entry]
  | files, _ => .ok (files.map fun (file : String) => c.path file)

/-- How jobs are compiled: as the project says, unless a flag says otherwise. -/
def jobOptions (a : Arguments) (config : Option Config) : Options :=
  let base := (config.map Config.options).getD {}
  { base with
    minify := (a.switch? "minify").getD base.minify
    lineMap := (a.switch? "sourcemap").getD base.lineMap
    canvas := (a.text? "canvas").getD base.canvas
    fps := (a.number? "fps").getD base.fps }

/-- Where the script of a file goes: where a flag says, where the project says if no file is named,
or else beside the file. -/
def outputFor (c : Console) (a : Arguments) (config : Option Config) (input : RawText) : RawText :=
  if !(a.text "output").isEmpty then c.path (a.text "output")
  else match config, a.files with
    | some config, [] => c.path config.output
    | _, _ => Path.replaceExtension input ".js"

/-- The job of a file. -/
def jobFor (c : Console) (a : Arguments) (config : Option Config) (input : RawText) : Job :=
  let output := outputFor c a config input
  { input, output,
    options := { jobOptions a config with
      sourceName := Path.base input, outputName := Path.base output } }

/-- The jobs of a command. -/
def jobs (c : Console) (a : Arguments) (config : Option Config) : Except Stop (List Job) := do
  let files ← inputs c a config
  if !(a.text "output").isEmpty ∧ 1 < files.length then
    .error (.usage s!"-o cannot be used with {files.length} input files")
  else match a.number? "fps" with
    | some fps =>
      if fps ≤ 0 then .error (.usage s!"--fps must be positive, got {fps}")
      else .ok (files.map (jobFor c a config))
    | none => .ok (files.map (jobFor c a config))

/-! ## Building -/

/-- Why a script cannot be written. -/
inductive BuildError where
  | read (e : HostError)
  | load (e : Workspace.LoadError)
  | refused (e : Workspace.Error)
  | persist (e : Workspace.PersistError)
  deriving DecidableEq, Repr

def BuildError.message : BuildError → String
  | .read e => "reading input: " ++ e.message
  | .load e => e.message
  | .refused e => e.message
  | .persist e => "writing output: " ++ e.message

/-- How a build ends. -/
inductive Outcome where
  | rejected (diagnostics : List Diagnostic)
  | failed (e : BuildError)
  | built
  deriving DecidableEq, Repr

/-- Stage a script under a name, with its line map or without one. -/
def stage (b : Build) (name : RawText) (w : Workspace) : Except Workspace.Error Workspace := do
  let w ← w.write name b.data
  match b.map with
  | some map => w.write (name ++ ".map") map.print.toUTF8
  | none => if w.contains (name ++ ".map") then w.delete (name ++ ".map") else .ok w

variable {m : Type → Type} [Monad m] [HostAccess m]

/-- Write a script to a path. -/
def writeBuild (output : RawText) (b : Build) : m Outcome := do
  let directory := Path.parent output
  let name := Path.base output
  match ← Workspace.load directory [name, name ++ ".map"] {} with
  | (_, some e) => return .failed (.load e)
  | (w, none) =>
    match stage b name w with
    | .error e => return .failed (.refused e)
    | .ok w =>
      match ← w.persist directory with
      | (_, some e) => return .failed (.persist e)
      | (_, none) => return .built

/-- Compile a source and write the script. -/
def Job.build (j : Job) (source : ByteArray) : m Outcome :=
  match compile j.options (Text.decode source) with
  | .error ds => pure (.rejected ds)
  | .ok b => writeBuild j.output b

/-! ## Log -/

/-- The log line of a diagnostic. -/
def diagnosticLog (level : LogLevel) (d : Diagnostic) : LogLine where
  level := level
  message := d.message
  fields := [("column", toString d.column), ("line", toString d.line)]

/-- What is logged while a source is compiled. Times are not measured. -/
def compileLog (o : Options) (source : String) : List LogLine :=
  let c := Checkup.ofSource source
  let lexed : LogLine :=
    { level := .debug, message := "lexed", fields := [("tokens", toString c.tokens)] }
  let parsed : LogLine :=
    { level := .debug, message := "parsed", fields := [("statements", toString c.program.length)] }
  let failed (n : Nat) : LogLine :=
    { level := .info, message := "compilation failed",
      fields := [("diagnostics", toString n), ("elapsed", "0")] }
  if !c.faults.isEmpty then
    lexed :: c.faults.map (fun f => diagnosticLog .warn f.toDiagnostic) ++ [failed c.faults.length]
  else if !c.misuses.isEmpty then
    lexed :: parsed :: c.misuses.map (fun f => diagnosticLog .debug f.toDiagnostic) ++
      [failed c.misuses.length]
  else
    [lexed, parsed,
      { level := .debug, message := "generated",
        fields := [("bytes", toString (c.program.build o).data.size)] },
      { level := .info, message := "compilation succeeded", fields := [("elapsed", "0")] }]

variable [Terminal m]

/-- Compile a source, write the script, and log it. -/
def Job.buildLogged (j : Job) (c : Console) (source : ByteArray) : m Outcome := do
  c.logAll (compileLog j.options (Text.decode source))
  j.build source

/-- Compile the file of a job. -/
def Job.buildFile (j : Job) (c : Console) : m Outcome := do
  match ← HostAccess.readFile j.input with
  | .error e => return .failed (.read e)
  | .ok source => j.buildLogged c source

/-- Say how a build ended, and whether it succeeded. -/
def Job.report (j : Job) (c : Console) : Outcome → m Bool
  | .rejected ds => do
    c.rejectFile j.input ds
    return false
  | .failed e => do
    c.complain (c.relative j.input ++ ": " ++ e.message)
    return false
  | .built => do
    c.status s!"compiled {c.relative j.input} -> {c.relative j.output}"
    return true

end Easel.Command
