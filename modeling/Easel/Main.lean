import Easel.Command.Line

/-!
# The program

The command line on a real machine: files, streams and a watch loop.
-/

namespace Easel.Command

/-- The number of an error; some calls give it with its sign turned. -/
def errorNumber (code : UInt32) : UInt32 := if code < 0x80000000 then code else 0 - code

/-- The cause of a failed call. A file in the way of a directory is already there. -/
def causeOf : IO.Error → HostError.Cause
  | .noFileOrDirectory .. => .missing
  | .noSuchThing .. => .missing
  | .alreadyExists .. => .notDirectory
  | .inappropriateType _ code _ => if errorNumber code = 20 then .notDirectory else .isDirectory
  | .unsatisfiedConstraints code details =>
    if errorNumber code = 39 then .notEmpty else .other details
  | .invalidArgument _ code _ => if errorNumber code = 36 then .tooLong else .invalid
  | e => .other (toString e)

/-- The path an error is about, if it names one. -/
def pathOf (path : RawText) : IO.Error → RawText
  | .alreadyExists (some file) _ _ => file
  | _ => path

/-- Make a call, with its failure as a value. -/
def attempt {α : Type} (call : String) (path : RawText) (act : IO α) : IO (Except HostError α) := do
  try
    return .ok (← act)
  catch e => return .error ⟨call, pathOf path e, causeOf e⟩

/-- Whether a path leads to a directory of the machine. -/
def isDirectory (path : RawText) : IO Bool := do
  let m ← ((← IO.currentDir) / path.text).metadata
  return m.type == .dir

instance : HostAccess IO where
  stat path := attempt "stat" path (isDirectory path)
  readFile path := do
    match ← attempt "open" path (isDirectory path) with
    | .error e => return .error e
    | .ok true => return .error ⟨"read", path, .isDirectory⟩
    | .ok false => attempt "open" path (IO.FS.readBinFile path.text)
  writeFile path data := attempt "open" path (IO.FS.writeBinFile path.text data)
  makeDirs path := attempt "mkdir" path (IO.FS.createDirAll path.text)
  remove path := do
    match ← attempt "remove" path (isDirectory path) with
    | .error e => return .error e
    | .ok true => attempt "remove" path (IO.FS.removeDir path.text)
    | .ok false => attempt "remove" path (IO.FS.removeFile path.text)

instance : Terminal IO where
  writeOut text := do
    (← IO.getStdout).putStr text
    (← IO.getStdout).flush
  writeErr text := do
    (← IO.getStderr).putStr text
    (← IO.getStderr).flush
  openPage _ := return some "no browser"

/-- The modification time of a file, if it is there. -/
def modifiedAt (path : RawText) : IO (Option IO.FS.SystemTime) := do
  try
    return some (← ((← IO.currentDir) / path.text).metadata).modified
  catch _ => return none

/-- Build again after every change of the watched file. -/
partial def watchLoop (w : Watcher) (last : Option IO.FS.SystemTime) : IO UInt32 := do
  IO.sleep 50
  let now ← modifiedAt w.job.input
  if now.isSome && now != last then
    watchLoop (← w.react) now
  else watchLoop w last

end Easel.Command

open Easel.Command in
/-- Run the command line in the current directory. -/
def main (args : List String) : IO UInt32 := do
  let colored ← (← IO.getStdout).isTty
  let setting : Setting := { directory := (← IO.currentDir).toString, colored }
  match ← start setting args with
  | .exit status => return status.toUInt32
  | .watching w => watchLoop w (← modifiedAt w.job.input)
