import Easel.Command.Job

/-!
# Watching a file

A watcher builds a job once and again whenever its file changes. It keeps the last source it has
built, and a change that leaves the content as it is builds nothing.
-/

namespace Easel.Command

/-- A job that is built again whenever its file changes. -/
structure Watcher where
  job : Job
  console : Console
  /-- The last source, under the name of its file. -/
  staged : Workspace := {}

namespace Watcher

/-- The name the source is staged under. -/
def name (w : Watcher) : RawText := Path.base w.job.input

/-- The file as messages show it. -/
def file (w : Watcher) : String := w.console.relative w.job.input

/-- A log line about the file. -/
def fileLog (w : Watcher) (level : LogLevel) (message : String) (error : Option String := none) :
    LogLine where
  level := level
  message := message
  error := error
  fields := [("file", w.file)]

variable {m : Type → Type} [Monad m] [HostAccess m] [Terminal m]

/-- Stage a source and build it, unless it has the checksum of the last one. -/
def rebuildFrom (w : Watcher) (source : ByteArray) : m Watcher := do
  match w.staged.write w.name source with
  | .error e => do
    w.console.log (w.fileLog .warn "staging failed" (some e.message))
    return w
  | .ok staged =>
    let before := (w.staged.checksum w.name).toOption
    let after := (staged.checksum w.name).toOption
    let w := { w with staged }
    if before.isSome && before == after then
      w.console.log (w.fileLog .debug "content unchanged, skipping")
      return w
    else
      let outcome ← w.job.buildLogged w.console source
      let _ ← w.job.report w.console outcome
      return w

/-- Read the file and build it if its content has changed. -/
def rebuild (w : Watcher) : m Watcher := do
  match ← HostAccess.readFile w.job.input with
  | .error e => do
    w.console.log (w.fileLog .warn "read failed" (some e.message))
    return w
  | .ok source => w.rebuildFrom source

/-- Build again after a change of the file. -/
def react (w : Watcher) : m Watcher := do
  w.console.log { level := .debug, message := "change detected", fields := [("op", "CREATE")] }
  w.rebuild

/-- Why a directory cannot be watched, if that is so. It has to be there. A path that can name no
directory at all is watched in vain. -/
def directoryFault? (directory : RawText) : m (Option HostError.Cause) := do
  match ← HostAccess.stat directory with
  | .ok _ => return none
  | .error e => return if e.cause = .invalid then none else some e.cause

/-- Build a job for the first time and watch it. -/
def start (c : Console) (j : Job) : ExceptT Stop m Watcher := do
  let directory := Path.parent j.input
  match ← (directoryFault? directory : m _) with
  | some cause => throw (.error s!"watching {c.relative directory}: {cause.message}")
  | none =>
    let w ← (rebuild { job := j, console := c } : m Watcher)
    (c.log (w.fileLog .info "watching") : m Unit)
    return w

end Watcher

end Easel.Command
