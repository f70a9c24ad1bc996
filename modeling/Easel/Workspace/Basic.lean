import Easel.Checksum
import Easel.Path

/-!
# Workspaces

A workspace holds files in memory under relative names, up to a quota. It knows which of them differ
from the directory they are persisted to: writing other content or deleting a file marks its name.
-/

namespace Easel

/-- Whether a name is a clean relative path that stays below the root it is joined to. -/
def validPath (name : RawText) : Bool :=
  !name.isEmpty && !Path.isAbsolute name && Path.clean name == name &&
    !name.glyphs.any (fun g => g == .char '\x00' || g == .char '\\') &&
    (Path.split name).all (fun segment => segment != "." && segment != "..")

/-- The content of a file with its checksum. -/
structure Workspace.Entry where
  data : ByteArray
  checksum : UInt64

/-- The entry of some content. -/
def Workspace.Entry.ofData (data : ByteArray) : Workspace.Entry := ⟨data, Easel.checksum data⟩

/-- Files in memory. -/
structure Workspace where
  files : List (RawText × Workspace.Entry) := []
  /-- The names whose files are not known to be as on the host. -/
  dirty : List RawText := []
  /-- The number of bytes in all files. -/
  used : Nat := 0
  /-- Whether anything changed since the last persist, or that persist failed in part. -/
  changed : Bool := false

namespace Workspace

/-- The number of bytes that fit in a workspace. -/
def quota : Nat := 8 * 1024 * 1024

/-- Why an operation on a name is refused. -/
inductive Cause where
  | invalidPath | notFound | quotaExceeded
  deriving DecidableEq, Repr

/-- A refused operation. -/
structure Error where
  name : RawText
  cause : Cause
  deriving DecidableEq, Repr

def Cause.message : Cause → String
  | .invalidPath => "invalid path"
  | .notFound => "file not found"
  | .quotaExceeded => "workspace quota exceeded"

def Error.message (e : Error) : String := s!"{e.name}: {e.cause.message}"

/-! ## Reading -/

/-- The entry under a name. -/
def entry (w : Workspace) (name : RawText) : Except Error Entry :=
  if validPath name then
    match w.files.lookup name with
    | some e => .ok e
    | none => .error ⟨name, .notFound⟩
  else .error ⟨name, .invalidPath⟩

/-- The content of a file. -/
def read (w : Workspace) (name : RawText) : Except Error ByteArray := (w.entry name).map Entry.data

/-- The checksum of a file. -/
def checksum (w : Workspace) (name : RawText) : Except Error UInt64 :=
  (w.entry name).map Entry.checksum

def contains (w : Workspace) (name : RawText) : Bool := (w.files.lookup name).isSome

/-- The content of a file as text. -/
def readText (w : Workspace) (name : RawText) : Except Error String := (w.read name).map Text.decode

/-- The names of all files, sorted. -/
def names (w : Workspace) : List RawText := (w.files.map Prod.fst).mergeSort RawText.precedes

/-- The size of the file under a name; zero if there is none. -/
def sizeOf (w : Workspace) (name : RawText) : Nat :=
  match w.files.lookup name with
  | some e => e.data.size
  | none => 0

/-! ## Writing -/

/-- Whether content fits under a name, in place of what is there. -/
def fits (w : Workspace) (name : RawText) (data : ByteArray) : Bool :=
  w.used - w.sizeOf name + data.size ≤ quota

/-- The files with an entry under a name, in place of any before. -/
def putFile (files : List (RawText × Entry)) (name : RawText) (e : Entry) :
    List (RawText × Entry) :=
  (name, e) :: files.filter (fun f => f.1 != name)

/-- The names with one more. -/
def mark (names : List RawText) (name : RawText) : List RawText :=
  if names.contains name then names else names ++ [name]

/-- Store an entry under a name. -/
def store (w : Workspace) (name : RawText) (e : Entry) : Workspace :=
  { w with
    files := putFile w.files name e
    used := w.used - w.sizeOf name + e.data.size }

/-- Write a file. Content of the same length and checksum as before is taken to be the same, and
nothing changes. -/
def write (w : Workspace) (name : RawText) (data : ByteArray) : Except Error Workspace :=
  if !validPath name then .error ⟨name, .invalidPath⟩
  else if !w.fits name data then .error ⟨name, .quotaExceeded⟩
  else
    let e := Entry.ofData data
    let stored := { w.store name e with dirty := mark w.dirty name, changed := true }
    match w.files.lookup name with
    | some old =>
      if old.checksum = e.checksum ∧ old.data.size = data.size then .ok w else .ok stored
    | none => .ok stored

/-- Delete a file. The host's copy goes with the next persist. -/
def delete (w : Workspace) (name : RawText) : Except Error Workspace :=
  match w.entry name with
  | .error e => .error e
  | .ok old => .ok
    { files := w.files.filter (fun f => f.1 != name)
      used := w.used - old.data.size
      dirty := mark w.dirty name
      changed := true }

/-- Take over the content of a file as the host has it. Content that does not fit is passed over. -/
def loadFile (w : Workspace) (name : RawText) (data : ByteArray) : Workspace :=
  if w.fits name data then
    { w.store name (.ofData data) with dirty := w.dirty.filter (· != name) }
  else w

end Workspace

end Easel
