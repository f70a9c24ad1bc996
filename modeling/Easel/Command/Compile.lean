import Easel.Command.Watch

/-!
# Compiling files

All files are built, one after another, before any is reported.
-/

namespace Easel.Command

variable {m : Type → Type} [Monad m] [HostAccess m] [Terminal m]

/-- The configuration of the project in the working directory, if there is one. -/
def loadConfig (c : Console) : ExceptT Stop m (Option Config) := do
  match ← (HostAccess.readFile (Path.join c.directory Config.fileName) : m _) with
  | .error e =>
    if e.cause = .missing then
      (c.log { level := .debug, message := "no project config" } : m Unit)
      return none
    else throw (.error ("reading " ++ Config.fileName ++ ": " ++ e.message))
  | .ok data =>
    match Config.parse data with
    | .error e => throw (.error e.message)
    | .ok config => return some config

/-- The configuration of the project and the jobs it and the arguments make. -/
def prepareJobs (c : Console) (a : Arguments) : ExceptT Stop m (Option Config × List Job) := do
  let config ← loadConfig c
  let js ← ExceptT.mk (pure (jobs c a config))
  return (config, js)

/-- The only job there is. -/
def singleJob (message : String) : List Job → ExceptT Stop m Job
  | [j] => pure j
  | _ => throw (.usage message)

/-- Build the files of jobs in turn. -/
def buildAll (c : Console) : List Job → m (List (Job × Outcome))
  | [] => pure []
  | j :: rest => do
    let outcome ← j.buildFile c
    let more ← buildAll c rest
    return (j, outcome) :: more

/-- Report builds in turn, and say whether all succeeded. -/
def reportAll (c : Console) : List (Job × Outcome) → m Bool
  | [] => pure true
  | (j, outcome) :: rest => do
    let ok ← j.report c outcome
    let more ← reportAll c rest
    return ok && more

/-- Compile files. A command that was cancelled builds nothing. -/
def compileFiles (c : Console) (cancelled : Bool) (js : List Job) : ExceptT Stop m Unit := do
  if cancelled then throw (.error "context canceled")
  let outcomes ← (buildAll c js : m _)
  let ok ← (reportAll c outcomes : m Bool)
  if !ok then throw .failed

end Easel.Command
