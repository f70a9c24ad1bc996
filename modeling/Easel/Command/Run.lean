import Easel.Command.Compile
import Easel.Project.Page
import Easel.Project.Scaffold

/-!
# Running and starting projects

Running compiles a file and shows it in a page beside the script. A new project is written only
where none of its files is there yet.
-/

namespace Easel.Command

variable {m : Type → Type} [Monad m] [HostAccess m] [Terminal m]

/-! ## Running -/

/-- The file name of the page. -/
def pageName : String := "index.html"

/-- The directory of the page and the script. -/
def runDirectory (c : Console) (a : Arguments) (config : Option Config) : RawText :=
  if !(a.text "out-dir").isEmpty then c.path (a.text "out-dir")
  else match config with
    | some config => c.path (Path.parent config.output)
    | none => c.path "dist"

/-- The page of a job: the canvas is the one its script looks up. -/
def pageFor (config : Option Config) (j : Job) : Page :=
  let base := config.getD Config.default
  let id := if j.options.canvas.isEmpty then base.canvas.id else j.options.canvas
  Page.ofConfig { base with canvas := { base.canvas with id := id } }
    (Path.withoutExtension (Path.base j.input)) (Path.base j.output)

/-- Write a page to a directory. -/
def writePage (directory : RawText) (p : Page) : ExceptT Stop m Unit := do
  match ← (Workspace.load directory [pageName] {} : m _) with
  | (_, some e) => throw (.error e.message)
  | (w, none) =>
    match w.write pageName p.print.data with
    | .error e => throw (.error e.message)
    | .ok w =>
      match ← (w.persist directory : m _) with
      | (_, some e) => throw (.error ("writing page: " ++ e.message))
      | (_, none) => return ()

/-- The job with its script in another directory. -/
def Job.moved (j : Job) (directory : RawText) : Job :=
  { j with output := Path.join directory (Path.base j.output) }

/-- Say that a page is there and show it, unless it is not to be shown. -/
def showPage (c : Console) (a : Arguments) (page : RawText) : ExceptT Stop m Unit := do
  (c.status s!"wrote {c.relative page}" : m Unit)
  if a.switch "no-open" then return ()
  match ← (Terminal.openPage page.text : m _) with
  | none => return ()
  | some e => throw (.error ("opening browser: " ++ e))

/-- Build a job in a directory and show its page there. -/
def runJob (c : Console) (a : Arguments) (config : Option Config) (directory : RawText) (j : Job) :
    ExceptT Stop m Unit := do
  let outcome ← (j.buildFile c : m Outcome)
  let ok ← (j.report c outcome : m Bool)
  if !ok then throw .failed
  writePage directory (pageFor config j)
  showPage c a (Path.join directory pageName)

/-- Compile a file and show its page. -/
def runCommand (c : Console) (a : Arguments) : ExceptT Stop m Unit := do
  let (config, js) ← prepareJobs c a
  let j ← singleJob "run takes a single input file" js
  let directory := runDirectory c a config
  runJob c a config directory (j.moved directory)

/-! ## New projects -/

/-- Name the files that are in the way. -/
def listConflicts (c : Console) : List RawText → m Unit
  | [] => pure ()
  | name :: rest => do
    Terminal.writeErr (paint c.colored .failure "exists: " ++ name.text ++ "\n")
    listConflicts c rest

/-- Name the files that were created. -/
def listCreated (c : Console) : List RawText → m Unit
  | [] => pure ()
  | name :: rest => do
    c.status s!"created {name}"
    listCreated c rest

/-- Create a project in a directory. -/
def initCommand (c : Console) (a : Arguments) : ExceptT Stop m Unit := do
  let target ← match a.files with
    | [] => pure c.directory
    | [directory] => pure (c.path directory)
    | _ => throw (.usage "init takes at most one directory")
  match Config.default.scaffold with
  | .error e => throw (.error e.message)
  | .ok w =>
    match ← (w.conflicts target : m (List RawText)) with
    | [] =>
      match ← (w.persist target : m _) with
      | (_, some e) => throw (.error ("writing project: " ++ e.message))
      | (_, none) => (listCreated c w.names : m Unit)
    | found =>
      (listConflicts c found : m Unit)
      throw (.error ("refusing to overwrite " ++ plural found.length "existing file"))

end Easel.Command
