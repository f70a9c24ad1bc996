import Easel.Host.Access
import Easel.Workspace.Basic

/-!
# Workspaces and hosts

A workspace takes over files of a host directory and persists its own changes there. Every file is
persisted on its own: one that fails stays marked, and the others go on.
-/

namespace Easel.Workspace

variable {m : Type → Type} [Monad m] [HostAccess m]

/-! ## Loading -/

/-- Why files cannot be loaded. -/
inductive LoadError where
  | refused (e : Error)
  | failed (name : RawText) (e : HostError)
  deriving DecidableEq, Repr

def LoadError.message : LoadError → String
  | .refused e => e.message
  | .failed name e => s!"loading {name}: {e.message}"

/-- Load one file below a directory. One that is not there and a directory are passed over. -/
def loadOne (root name : RawText) (w : Workspace) : m (Except LoadError Workspace) := do
  if !validPath name then return .error (.refused ⟨name, .invalidPath⟩)
  let path := Path.join root name
  match ← HostAccess.stat path with
  | .error e => return if e.cause = .missing then .ok w else .error (.failed name e)
  | .ok true => return .ok w
  | .ok false =>
    match ← HostAccess.readFile path with
    | .error e => return .error (.failed name e)
    | .ok data => return .ok (w.loadFile name data)

/-- Load files below a directory, up to the first that fails. -/
def load (root : RawText) : List RawText → Workspace → m (Workspace × Option LoadError)
  | [], w => pure (w, none)
  | name :: rest, w => do
    match ← loadOne root name w with
    | .error e => return (w, some e)
    | .ok w' => load root rest w'

/-! ## Conflicts -/

/-- The names for which there is something below a directory. -/
def taken (root : RawText) : List RawText → m (List RawText)
  | [] => pure []
  | name :: rest => do
    let found ← HostAccess.stat (Path.join root name)
    let more ← taken root rest
    return match found with
      | .ok _ => name :: more
      | .error _ => more

/-- The files of the workspace that are already there below a directory. -/
def conflicts (root : RawText) (w : Workspace) : m (List RawText) := taken root w.names

/-! ## Persisting -/

/-- Why changes cannot be persisted. -/
inductive PersistError where
  | root (path : RawText) (e : HostError)
  | remove (name : RawText) (e : HostError)
  | directory (name : RawText) (e : HostError)
  | write (name : RawText) (e : HostError)
  deriving DecidableEq, Repr

def PersistError.message : PersistError → String
  | .root path e => s!"creating {path}: {e.message}"
  | .remove name e => s!"removing {name}: {e.message}"
  | .directory name e => s!"creating directory for {name}: {e.message}"
  | .write name e => s!"writing {name}: {e.message}"

/-- Remove a deleted file from the host. One that is not there needs no removing. -/
def persistRemoval (root name : RawText) : m (Option PersistError) := do
  match ← HostAccess.remove (Path.join root name) with
  | .ok () => return none
  | .error e => return if e.cause = .missing then none else some (.remove name e)

/-- Write a file to the host, with the directories above it. -/
def persistFile (root name : RawText) (data : ByteArray) : m (Option PersistError) := do
  let path := Path.join root name
  match ← HostAccess.makeDirs (Path.parent path) with
  | .error e => return some (.directory name e)
  | .ok () =>
    match ← HostAccess.writeFile path data with
    | .error e => return some (.write name e)
    | .ok () => return none

/-- Bring the host into agreement with the workspace at one name. -/
def persistName (root : RawText) (w : Workspace) (name : RawText) : m (Option PersistError) :=
  match w.files.lookup name with
  | some e => persistFile root name e.data
  | none => persistRemoval root name

/-- Persist names in turn: those that failed, with their errors. -/
def persistEach (root : RawText) (w : Workspace) : List RawText → m (List (RawText × PersistError))
  | [] => pure []
  | name :: rest => do
    let failure ← persistName root w name
    let more ← persistEach root w rest
    return match failure with
      | some e => (name, e) :: more
      | none => more

/-- Persist the marked names in a given order, those of deleted files before the others. The result
says which names stay marked and gives the first error. -/
def persistInOrder (order : List RawText) (root : RawText) (w : Workspace) :
    m (Workspace × Option PersistError) := do
  match ← HostAccess.makeDirs root with
  | .error e => return (w, some (.root root e))
  | .ok () =>
    let (present, deleted) := order.partition w.contains
    let failures ← persistEach root w (deleted ++ present)
    return ({ w with dirty := failures.map Prod.fst, changed := !failures.isEmpty },
      failures.head?.map Prod.snd)

/-- Persist the marked names below a directory, in alphabetical order. -/
def persist (root : RawText) (w : Workspace) : m (Workspace × Option PersistError) :=
  persistInOrder (w.dirty.mergeSort RawText.precedes) root w

end Easel.Workspace
