import Easel.Path

/-!
# Host file systems

A host is a tree of directories and files, held as a map from locations to nodes: a location is the
list of segments from the root, which is always there. Each operation names the path it was given if
it fails.
-/

namespace Easel

/-- The segments from the root to a node. -/
abbrev Location := List RawText

/-- What a location holds. -/
inductive Node where
  /-- A file, and whether its modification time was set back since it was written. -/
  | file (data : ByteArray) (aged : Bool)
  | directory

instance : DecidableEq Node
  | .file data aged, .file data' aged' =>
    have : DecidableEq ByteArray := ByteArray.instDecidableEq
    decidable_of_decidable_of_iff (p := data = data' ∧ aged = aged')
      ⟨fun h => by rw [h.1, h.2], Node.file.inj⟩
  | .directory, .directory => isTrue rfl
  | .file _ _, .directory => isFalse nofun
  | .directory, .file _ _ => isFalse nofun

/-- A tree of directories and files. -/
structure Host where
  entries : List (Location × Node) := []

/-- Why a host operation fails. -/
inductive HostError.Cause where
  | missing | isDirectory | notDirectory | notEmpty | invalid | tooLong
  /-- A cause that only a machine has, in its own words. -/
  | other (message : String)
  deriving DecidableEq, Repr

/-- A failed host operation: the call that failed, the path it was given, and the cause. -/
structure HostError where
  call : String
  path : RawText
  cause : HostError.Cause
  deriving DecidableEq, Repr

def HostError.Cause.message : HostError.Cause → String
  | .missing => "no such file or directory"
  | .isDirectory => "is a directory"
  | .notDirectory => "not a directory"
  | .notEmpty => "directory not empty"
  | .invalid => "invalid argument"
  | .tooLong => "file name too long"
  | .other message => message

def HostError.message (e : HostError) : String := s!"{e.call} {e.path}: {e.cause.message}"

/-- The location an absolute path leads to. -/
def locate (path : RawText) : Location := Path.cleanSegments path

/-- The absolute path of a location. -/
def Location.path (l : Location) : RawText := Path.ofSegments true l

/-! ## Names -/

/-- The longest name a node may have, in bytes. -/
def maxNameSize : Nat := 255

/-- The longest path an operation takes, in bytes. -/
def maxPathSize : Nat := 4095

/-- Why no operation takes a path, if that is so: no path holds a zero character, and its length is
bounded. -/
def pathFault? (path : RawText) : Option HostError.Cause :=
  if path.glyphs.contains (.char '\x00') then some .invalid
  else if maxPathSize < path.size then some .tooLong
  else none

namespace Host

/-! ## The map of nodes -/

/-- The node at a location. -/
def node? (h : Host) (l : Location) : Option Node :=
  if l = [] then some .directory else h.entries.lookup l

/-- The host with a node at a location, in place of any before. -/
def put (h : Host) (l : Location) (n : Node) : Host :=
  ⟨(l, n) :: h.entries.filter (fun e => e.1 != l)⟩

/-- The host without the node at a location. -/
def erase (h : Host) (l : Location) : Host := ⟨h.entries.filter (fun e => e.1 != l)⟩

/-- The entries strictly below a location. -/
def below (h : Host) (l : Location) : List (Location × Node) :=
  h.entries.filter fun e => l.isPrefixOf e.1 && e.1 != l

/-! ## Finding -/

/-- The node at the end of `rest`, seen from the location `l`. Every node on the way has to be a
directory, and a directory knows no name that is too long. -/
def walk (h : Host) (l : Location) : Location → Except HostError.Cause Node
  | [] =>
    match h.node? l with
    | some n => .ok n
    | none => .error .missing
  | segment :: rest =>
    match h.node? l with
    | some .directory =>
      if maxNameSize < segment.size then .error .tooLong
      else h.walk (l ++ [segment]) rest
    | some (.file _ _) => .error .notDirectory
    | none => .error .missing

/-- The node a path leads to. -/
def find (h : Host) (path : RawText) : Except HostError.Cause Node :=
  match pathFault? path with
  | some cause => .error cause
  | none => h.walk [] (locate path)

/-- Whether a path leads to a directory. -/
def stat (h : Host) (path : RawText) : Except HostError Bool :=
  match h.find path with
  | .ok .directory => .ok true
  | .ok (.file _ _) => .ok false
  | .error cause => .error ⟨"stat", path, cause⟩

/-! ## Files -/

def readFile (h : Host) (path : RawText) : Except HostError ByteArray :=
  match h.find path with
  | .ok (.file data _) => .ok data
  | .ok .directory => .error ⟨"read", path, .isDirectory⟩
  | .error cause => .error ⟨"open", path, cause⟩

/-- Write a file. A new one needs its directory to be there. -/
def writeFile (h : Host) (path : RawText) (data : ByteArray) : Except HostError Host :=
  match h.find path with
  | .ok (.file _ _) => .ok (h.put (locate path) (.file data false))
  | .ok .directory => .error ⟨"open", path, .isDirectory⟩
  | .error .missing =>
    match h.walk [] (locate path).dropLast with
    | .ok .directory => .ok (h.put (locate path) (.file data false))
    | _ => .error ⟨"open", path, .missing⟩
  | .error cause => .error ⟨"open", path, cause⟩

/-! ## Directories -/

/-- Why a directory cannot be made at a location whose directory is there, if that is so. -/
def newDirFault? (l : Location) : Option HostError.Cause :=
  match pathFault? l.path with
  | some cause => some cause
  | none =>
    if l.getLast?.any (fun name => maxNameSize < name.size) then some .tooLong else none

/-- Make the directories of `rest` below the directory `l`, up to the first that cannot be made. A
file in the way is named in the error. -/
def makeDirsFrom (h : Host) (l : Location) : Location → Except HostError Unit × Host
  | [] => (.ok (), h)
  | segment :: rest =>
    let next : Location := l ++ [segment]
    match h.node? next with
    | some .directory => h.makeDirsFrom next rest
    | some (.file _ _) => (.error ⟨"mkdir", next.path, .notDirectory⟩, h)
    | none =>
      match newDirFault? next with
      | some cause => (.error ⟨"mkdir", next.path, cause⟩, h)
      | none => (h.put next .directory).makeDirsFrom next rest

/-- Make a directory with the directories above it, where they are not there yet. -/
def makeDirs (h : Host) (path : RawText) : Except HostError Unit × Host :=
  h.makeDirsFrom [] (locate path)

/-- An operation that changes the host unless it fails. -/
def change (h : Host) (f : Host → Except HostError Host) : Except HostError Unit × Host :=
  match f h with
  | .ok h' => (.ok (), h')
  | .error e => (.error e, h)

/-! ## Removing -/

/-- Remove a file or an empty directory. -/
def remove (h : Host) (path : RawText) : Except HostError Host :=
  match h.find path with
  | .ok (.file _ _) => .ok (h.erase (locate path))
  | .ok .directory =>
    if (h.below (locate path)).isEmpty then .ok (h.erase (locate path))
    else .error ⟨"remove", path, .notEmpty⟩
  | .error cause => .error ⟨"remove", path, cause⟩

/-- The host without a path and everything below it. -/
def removeTree (h : Host) (path : RawText) : Host :=
  ⟨h.entries.filter fun e => !(locate path).isPrefixOf e.1⟩

/-- The host with the modification time of a file set back. -/
def age (h : Host) (path : RawText) : Host :=
  match h.find path with
  | .ok (.file data _) => h.put (locate path) (.file data true)
  | _ => h

/-- Write a file with the directories above it, which stay even if the file cannot be written. -/
def place (h : Host) (path : RawText) (data : ByteArray) : Except HostError Unit × Host :=
  match h.makeDirs (Path.parent path) with
  | (.ok (), h') => h'.change (·.writeFile path data)
  | (.error e, h') => (.error e, h')

end Host

end Easel
