import Easel.Command.Line
import Easel.Proofs.Workspace.Calls

/-!
# Commands at a desktop

A command is a chain of steps, each of which may end it early.  The lemmas here say what the steps
that commands share give at a desktop: the configuration of the project (`run_loadConfig`), the
files and jobs that follow from it, and how the end of a command becomes the status of a session
(`run_session`).
-/

namespace Easel.Command

open Workspace (run_bind)

variable {α β : Type} {d d' : Desktop} {c : Console} {a : Arguments}

/-! ## Steps -/

/-- A step changes the desktop and may end the command. -/
abbrev Step := ExceptT Stop (StateM Desktop)

section Steps

variable {x : Step α} {f : α → Step β}

theorem run_bind_ok {r : α} (hx : x.run.run d = (.ok r, d')) :
    (x >>= f).run.run d = (f r).run.run d' := by
  rw [ExceptT.run_bind, run_bind, hx]

theorem run_bind_error {e : Stop} (hx : x.run.run d = (.error e, d')) :
    (x >>= f).run.run d = (.error e, d') := by
  rw [ExceptT.run_bind, run_bind, hx]
  rfl

/-- Steps that go well do so one after the other. -/
theorem of_run_bind_ok {r : β} (hrun : (x >>= f).run.run d = (.ok r, d')) :
    ∃ r₁ d₁, x.run.run d = (.ok r₁, d₁) ∧ (f r₁).run.run d₁ = (.ok r, d') := by
  rcases hx : x.run.run d with ⟨e | r₁, d₁⟩
  · rw [run_bind_error hx] at hrun
    cases hrun
  · exact ⟨r₁, d₁, rfl, (run_bind_ok hx).symm.trans hrun⟩

/-- A step that cannot end the command. -/
theorem run_lift_bind (y : StateM Desktop α) :
    ((liftM y : Step α) >>= f).run.run d = (f (y.run d).1).run.run (y.run d).2 := rfl

end Steps

/-! ## Preparation -/

/-- The configuration of the project in a directory of a host, if there is one. -/
def configAt (h : Host) (directory : RawText) : Except Stop (Option Config) :=
  match h.readFile (Path.join directory Config.fileName) with
  | .error e =>
    if e.cause = .missing then .ok none
    else .error (.error ("reading " ++ Config.fileName ++ ": " ++ e.message))
  | .ok data =>
    match Config.parse data with
    | .error e => .error (.error e.message)
    | .ok config => .ok (some config)

theorem run_log (c : Console) (l : LogLine) (d : Desktop) :
    (c.log l : StateM Desktop Unit).run d = ((), { d with
      err := d.err ++
        if c.verbose || l.level == .warn then l.print c.coloredLog c.time else "" }) := by
  unfold Console.log
  split
  · rfl
  · rw [String.append_empty]
    rfl

theorem host_log (c : Console) (l : LogLine) (d : Desktop) :
    ((c.log l : StateM Desktop Unit).run d).2.host = d.host := by rw [run_log]

/-- What a console logs where a project has no configuration. -/
def noteConfig (c : Console) (d : Desktop) : Desktop :=
  match d.host.readFile (Path.join c.directory Config.fileName) with
  | .error e =>
    if e.cause = .missing then
      ((c.log { level := .debug, message := "no project config" } : StateM Desktop Unit).run d).2
    else d
  | .ok _ => d

@[simp]
theorem host_noteConfig (c : Console) (d : Desktop) : (noteConfig c d).host = d.host := by
  unfold noteConfig
  split
  · split
    · exact host_log c _ d
    · rfl
  · rfl

theorem run_loadConfig (c : Console) (d : Desktop) :
    (loadConfig c : Step _).run.run d = (configAt d.host c.directory, noteConfig c d) := by
  have hread (p : RawText) :
      (HostAccess.readFile p : StateM Desktop _).run d = (d.host.readFile p, d) := rfl
  rw [loadConfig, run_lift_bind, hread, configAt, noteConfig]
  cases d.host.readFile (Path.join c.directory Config.fileName) with
  | error e =>
    dsimp only
    split <;> rfl
  | ok data =>
    dsimp only
    cases Config.parse data <;> rfl

theorem run_prepareInputs (c : Console) (a : Arguments) (d : Desktop) :
    (prepareInputs c a : Step _).run.run d =
      (configAt d.host c.directory >>= inputs c a, noteConfig c d) := by
  rw [prepareInputs]
  cases hconfig : configAt d.host c.directory with
  | error e =>
    rw [run_bind_error ((run_loadConfig c d).trans (by rw [hconfig]))]
    rfl
  | ok config =>
    rw [run_bind_ok ((run_loadConfig c d).trans (by rw [hconfig]))]
    rfl

/-- The configuration of the project on a host and the jobs that it and the arguments make. -/
def jobsAt (h : Host) (c : Console) (a : Arguments) : Except Stop (Option Config × List Job) :=
  match configAt h c.directory with
  | .error e => .error e
  | .ok config => (jobs c a config).map (config, ·)

theorem jobsAt_eq_ok {h : Host} {config : Option Config} {js : List Job} :
    jobsAt h c a = .ok (config, js) ↔
      configAt h c.directory = .ok config ∧ jobs c a config = .ok js := by
  rw [jobsAt]
  cases configAt h c.directory with
  | error e => simp
  | ok found =>
    dsimp only
    cases hjobs : jobs c a found with
    | error e =>
      refine ⟨fun heq => (by cases heq), ?_⟩
      rintro ⟨⟨⟩, hjs⟩
      rw [hjobs] at hjs
      cases hjs
    | ok js' =>
      refine ⟨fun heq => (by cases heq; exact ⟨rfl, hjobs⟩), ?_⟩
      rintro ⟨⟨⟩, hjs⟩
      rw [← Except.ok.inj (hjobs.symm.trans hjs)]
      rfl

theorem run_prepareJobs (c : Console) (a : Arguments) (d : Desktop) :
    (prepareJobs c a : Step _).run.run d = (jobsAt d.host c a, noteConfig c d) := by
  rw [prepareJobs, jobsAt]
  cases hconfig : configAt d.host c.directory with
  | error e =>
    rw [run_bind_error ((run_loadConfig c d).trans (by rw [hconfig]))]
  | ok config =>
    rw [run_bind_ok ((run_loadConfig c d).trans (by rw [hconfig]))]
    dsimp only
    cases jobs c a config <;> rfl

theorem run_prepareJobs_ok {config : Option Config} {js : List Job}
    (hconfig : configAt d.host c.directory = .ok config) (hjobs : jobs c a config = .ok js) :
    (prepareJobs c a : Step _).run.run d = (.ok (config, js), noteConfig c d) := by
  rw [run_prepareJobs, jobsAt_eq_ok.2 ⟨hconfig, hjobs⟩]

/-! ## The end -/

/-- How a command that ends early goes on: it says why. -/
def Verb.conclude (v : Verb) (c : Console) : Except Stop Progress → StateM Desktop Progress
  | .ok p => pure p
  | .error (.usage message) => misuse v message
  | .error .failed => pure (.exit 1)
  | .error (.error message) => do
    c.complain message
    return .exit 1

theorem Verb.host_conclude (v : Verb) (c : Console) (r : Except Stop Progress) (d : Desktop) :
    ((v.conclude c r).run d).2.host = d.host := by
  rcases r with (_ | _ | _) | _ <;> rfl

theorem start_name (s : Setting) (v : Verb) (args : List String) :
    (start s (v.name :: args) : StateM Desktop Progress) = v.start s args := by
  cases v <;> rfl

theorem Verb.start_of_ok {s : Setting} {v : Verb} {args : List String}
    (hargs : readArguments v.flags args {} = .ok a) :
    (v.start s args : StateM Desktop Progress) =
      (v.act s (s.console a) a).run >>= v.conclude (s.console a) := by
  rw [Verb.start, hargs]
  refine bind_congr fun r => ?_
  rcases r with (_ | _ | _) | _ <;> rfl

/-- The end of a session: a command that watches goes on until the edits are over. -/
def finish (edits : List Edit) : Progress → StateM Desktop Nat
  | .exit status => pure status
  | .watching w => do
    watchEdits w edits
    return 0

theorem run_session {s : Setting} {v : Verb} {args : List String} (edits : List Edit)
    (hargs : readArguments v.flags args {} = .ok a) (d : Desktop) :
    (session s (v.name :: args) edits).run d =
      ((v.act s (s.console a) a).run >>= v.conclude (s.console a) >>= finish edits).run d := by
  rw [session, start_name, Verb.start_of_ok hargs]
  refine congrArg (StateT.run · d) (bind_congr fun r => ?_)
  cases r <;> rfl

section Ends

variable {s : Setting} {v : Verb} {args : List String} (edits : List Edit)

theorem run_session_of_exit {status : Nat} (hargs : readArguments v.flags args {} = .ok a)
    (hact : (v.act s (s.console a) a : Step Progress).run.run d = (.ok (.exit status), d')) :
    (session s (v.name :: args) edits).run d = (status, d') := by
  rw [run_session edits hargs, run_bind, run_bind, hact]
  rfl

theorem run_session_of_failed (hargs : readArguments v.flags args {} = .ok a)
    (hact : (v.act s (s.console a) a : Step Progress).run.run d = (.error .failed, d')) :
    (session s (v.name :: args) edits).run d = (1, d') := by
  rw [run_session edits hargs, run_bind, run_bind, hact]
  rfl

/-- A command that ends early does not end well. -/
theorem status_ne_zero_of_error {e : Stop} (hargs : readArguments v.flags args {} = .ok a)
    (hact : (v.act s (s.console a) a : Step Progress).run.run d = (.error e, d')) :
    ((session s (v.name :: args) edits).run d).1 ≠ 0 := by
  rw [run_session edits hargs, run_bind, run_bind, hact]
  cases e <;> exact Nat.succ_ne_zero _

theorem exists_progress_of_status (hargs : readArguments v.flags args {} = .ok a)
    (hstatus : ((session s (v.name :: args) edits).run d).1 = 0) :
    ∃ p d', (v.act s (s.console a) a : Step Progress).run.run d = (.ok p, d') := by
  rcases hact : (v.act s (s.console a) a : Step _).run.run d with
    ⟨e | p, d'⟩
  · exact absurd hstatus (status_ne_zero_of_error edits hargs hact)
  · exact ⟨p, d', rfl⟩

end Ends

end Easel.Command
