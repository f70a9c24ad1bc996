import Easel.Command.Check
import Easel.Command.Run

/-!
# The command line

The first argument names a command. A command ends with a status: zero if all went well, one if it
failed, two if it was called in a way it cannot be. A command that watches a file goes on until it
is cancelled.
-/

namespace Easel.Command

/-- The commands. -/
inductive Verb where
  | check | compile | format | init | run | watch
  deriving DecidableEq, Repr

namespace Verb

/-- Every command, by name. -/
def all : List Verb := [check, compile, format, init, run, watch]

def name : Verb → String
  | check => "check"
  | compile => "compile"
  | format => "format"
  | init => "init"
  | run => "run"
  | watch => "watch"

/-- The command with a given name. -/
def ofName? (s : String) : Option Verb := all.find? (fun v => v.name == s)

/-- How a command is called. -/
def usage : Verb → String
  | check => "check [flags] [file...]"
  | compile => "compile [flags] [file...]"
  | format => "format [flags] [file...]"
  | init => "init [dir]"
  | run => "run [flags] [file]"
  | watch => "watch [flags] [file]"

/-- What a command does. -/
def summary : Verb → String
  | check => "Validate a program without compiling"
  | compile => "Compile MFlow to JavaScript"
  | format => "Format MFlow code"
  | init => "Create a new MFlow project"
  | run => "Compile and open the program in a browser"
  | watch => "Watch and recompile on changes"

/-- The flags of a command. -/
def flags : Verb → List Flag
  | check => commonFlags ++ [
    { name := "ast", kind := .switch, summary := "print the syntax tree of each file" }]
  | compile => compileFlags ++ [
    { name := "watch", short := some 'w', kind := .switch,
      summary := "watch and recompile on changes" }]
  | format => commonFlags ++ [
    { name := "write", short := some 'w', kind := .switch,
      summary := "write the result back to the file" }]
  | init => commonFlags
  | run => compileFlags ++ [
    { name := "no-open", kind := .switch, summary := "write the page without opening a browser" },
    { name := "out-dir", kind := .text,
      summary := "directory for index.html and the script (default dist)" }]
  | watch => compileFlags

end Verb

/-- The usage line of a command. -/
def usageLine (v : Verb) : String := s!"usage: mflow {v.usage}\n"

/-- What is shown if no command is named. -/
def overview : String :=
  "usage: mflow <command> [flags] [args]\n\ncommands:\n" ++
    String.join (Verb.all.map fun v => s!"  {Text.padRight 26 v.usage} {v.summary}\n")

/-- Where and how a command is run. -/
structure Setting where
  /-- The working directory, an absolute path. -/
  directory : String
  /-- Whether the terminal shows colors. -/
  colored : Bool := false
  /-- Whether the command is cancelled before it starts. -/
  cancelled : Bool := false
  /-- The time of log lines. -/
  time : String := "12:00AM"

/-- The console of a command. -/
def Setting.console (s : Setting) (a : Arguments) : Console where
  directory := s.directory
  colored := s.colored && !a.switch "no-color"
  coloredLog := !a.switch "no-color"
  verbose := a.switch "verbose"
  time := s.time

/-- How a command goes on: it ends with a status, or it watches a file. -/
inductive Progress where
  | exit (status : Nat)
  | watching (w : Watcher)

variable {m : Type → Type} [Monad m] [HostAccess m] [Terminal m]

/-- Carry out a command. -/
def Verb.act (s : Setting) (c : Console) (a : Arguments) : Verb → ExceptT Stop m Progress
  | .check => do
    checkCommand c a
    return .exit 0
  | .compile => do
    let (_, js) ← prepareJobs c a
    if a.switch "watch" then
      let j ← singleJob "--watch takes a single input file" js
      return .watching (← Watcher.start c j)
    else
      compileFiles c s.cancelled js
      return .exit 0
  | .format => do
    formatCommand c a
    return .exit 0
  | .init => do
    initCommand c a
    return .exit 0
  | .run => do
    runCommand c a
    return .exit 0
  | .watch => do
    let (_, js) ← prepareJobs c a
    let j ← singleJob "watch takes a single input file" js
    return .watching (← Watcher.start c j)

/-- Say how a command should have been called. -/
def misuse (v : Verb) (message : String) : m Progress := do
  Terminal.writeErr (s!"mflow {v.name}: {message}\n" ++ usageLine v)
  return .exit 2

/-- Run a command with its arguments. -/
def Verb.start (s : Setting) (v : Verb) (args : List String) : m Progress := do
  match readArguments v.flags args {} with
  | .error .help => do
    Terminal.writeErr (usageLine v ++ flagHelp v.flags)
    return .exit 0
  | .error (.error e) => misuse v e.message
  | .ok a =>
    let c := s.console a
    match ← (v.act s c a).run with
    | .ok p => return p
    | .error (.usage message) => misuse v message
    | .error .failed => return .exit 1
    | .error (.error message) => do
      c.complain message
      return .exit 1

/-- Run the command line. -/
def start (s : Setting) : List String → m Progress
  | [] => do
    Terminal.writeOut overview
    return .exit 2
  | first :: args => do
    if ["help", "-h", "--help"].contains first then
      Terminal.writeOut overview
      return .exit 0
    else match Verb.ofName? first with
      | some v => v.start s args
      | none =>
        Terminal.writeErr ("mflow: unknown command " ++ Text.quote first ++ "\n\n" ++ overview)
        return .exit 2

/-! ## Sessions on a desktop -/

/-- A file that is replaced while a command watches. -/
structure Edit where
  path : RawText
  data : ByteArray

/-- Replace a file on the desktop, and say whether that could be done. -/
def Edit.apply (e : Edit) : StateM Desktop Bool := fun d =>
  match d.host.writeFile e.path e.data with
  | .ok h => (true, { d with host := h })
  | .error _ => (false, d)

/-- Watch a file while others edit, until they are done. -/
def watchEdits (w : Watcher) : List Edit → StateM Desktop Unit
  | [] => pure ()
  | e :: rest => do
    let made ← e.apply
    if made && e.path = w.job.input then
      let w ← w.react
      watchEdits w rest
    else watchEdits w rest

/-- Run the command line on a desktop: the status it ends with. A command that watches is cancelled
after the last edit. -/
def session (s : Setting) (args : List String) (edits : List Edit) : StateM Desktop Nat := do
  match ← start s args with
  | .exit status => return status
  | .watching w => do
    watchEdits w edits
    return 0

end Easel.Command
