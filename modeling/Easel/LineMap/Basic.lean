import Easel.Json.Reader
import Easel.Json.Value
import Easel.LineMap.Vlq
import Easel.Position

/-!
# Line maps

A line map says for each line of a script which place of the source it comes from. It is written as
a source map of version 3: the groups of a line are separated by semicolons, and a group holds the
differences to the place before, as variable-length quantities.
-/

namespace Easel

/-- A place in a source as a map holds it; a decoded map may name any place. -/
structure MapPlace where
  line : Int
  column : Int
  deriving DecidableEq, Repr

/-- A source map of version 3. An absent list differs from an empty one. -/
structure LineMap where
  version : Int := 0
  file : RawText := ""
  sources : Option (List RawText) := none
  names : Option (List RawText) := none
  mappings : RawText := ""
  deriving DecidableEq, Repr

namespace LineMap

/-! ## Writing -/

/-- The group of a line that comes from `place`, where the last group came from `before`; lines and
columns count from zero here. -/
def group (before place : MapPlace) : List Char :=
  Vlq.encode 0 ++ Vlq.encode 0 ++ Vlq.encode (Vlq.wrap (place.line - before.line)) ++
    Vlq.encode (Vlq.wrap (place.column - before.column))

/-- The place a script line comes from: the last entry for the line counts. -/
def placeOf (entries : List (Int × MapPlace)) (line : Int) : Option MapPlace :=
  (entries.reverse.find? fun e => e.1 == line).map Prod.snd

/-- The groups of the lines from `line` on, each but that of the first line after a semicolon. -/
def groups (entries : List (Int × MapPlace)) : Nat → Nat → MapPlace → List Char
  | 0, _, _ => []
  | count + 1, line, before =>
    let separator := if line = 1 then [] else [';']
    match placeOf entries line with
    | none => separator ++ groups entries count (line + 1) before
    | some p =>
      let place : MapPlace := ⟨Vlq.wrap (p.line - 1), Vlq.wrap (p.column - 1)⟩
      separator ++ group before place ++ groups entries count (line + 1) place

/-- The map of a script of `total` lines with the given origins. -/
def ofEntries (file source : RawText) (entries : List (Int × MapPlace)) (total : Int) :
    LineMap where
  version := 3
  file := file
  sources := some [source]
  names := some []
  mappings := String.ofList (groups entries total.toNat 1 ⟨0, 0⟩)

/-- A list of strings as JSON. -/
def listJson : Option (List RawText) → Json.Value
  | none => .null
  | some items => .array (items.map .string)

/-- The map as JSON. An empty file name is left out. -/
def toJson (m : LineMap) : Json.Value :=
  .object ([("version", .int m.version)] ++
    (if m.file.isEmpty then [] else [("file", .string m.file)]) ++
    [("sources", listJson m.sources), ("names", listJson m.names),
      ("mappings", .string m.mappings)])

/-- The text of the map's file. -/
def print (m : LineMap) : String := m.toJson.compact

/-! ## Reading -/

/-- Why a document is no line map. -/
inductive Error where
  | malformed
  | unsupportedVersion (version : Int)
  deriving DecidableEq, Repr

def Error.message : Error → String
  | .malformed => "decoding source map"
  | .unsupportedVersion version => s!"unsupported source map version {version}"

/-- The fields of a document. -/
def fields : List (Json.Field LineMap) := [
  .of "file" Json.string (·.file) fun m v => { m with file := v },
  .of "mappings" Json.string (·.mappings) fun m v => { m with mappings := v },
  .of "names" Json.strings (·.names) fun m v => { m with names := v },
  .of "sources" Json.strings (·.sources) fun m v => { m with sources := v },
  .of "version" Json.int (·.version) fun m v => { m with version := v }]

/-- The map a document holds. -/
def parse (bytes : ByteArray) : Except Error LineMap :=
  match Json.document fields {} bytes with
  | none => .error .malformed
  | some m => if m.version = 3 then .ok m else .error (.unsupportedVersion m.version)

/-- Why the groups of a line cannot be read. -/
structure LineError where
  line : Nat
  cause : Vlq.Error
  deriving DecidableEq, Repr

def LineError.message (e : LineError) : String := s!"line {e.line}: {e.cause.message}"

/-- Read the segments of a group. The place moves with every segment that names one; the result also
says where the first segment led, if it named a place. -/
def readSegments (place : MapPlace) : List (List UInt8) →
    Except Vlq.Error (MapPlace × Option MapPlace)
  | [] => .ok (place, none)
  | segment :: rest => do
    let fields ← Vlq.decode segment
    match fields with
    | _ :: _ :: dl :: dc :: _ =>
      let moved : MapPlace := ⟨Vlq.wrap (place.line + dl), Vlq.wrap (place.column + dc)⟩
      let (last, _) ← readSegments moved rest
      pure (last, some ⟨Vlq.wrap (moved.line + 1), Vlq.wrap (moved.column + 1)⟩)
    | _ =>
      let (last, _) ← readSegments place rest
      pure (last, none)

/-- Read the groups of the lines from `line` on. -/
def readGroups (place : MapPlace) (line : Nat) : List (List UInt8) →
    Except LineError (List (Nat × MapPlace))
  | [] => .ok []
  | [] :: rest => readGroups place (line + 1) rest
  | group :: rest =>
    match readSegments place (group.splitOn ','.toNat.toUInt8) with
    | .error cause => .error ⟨line, cause⟩
    | .ok (last, first) => do
      let more ← readGroups last (line + 1) rest
      pure (match first with
        | some p => (line, p) :: more
        | none => more)

/-- The places the lines of the script come from, by line. Of a line only the first segment
counts. -/
def lines (m : LineMap) : Except LineError (List (Nat × MapPlace)) :=
  readGroups ⟨0, 0⟩ 1 (m.mappings.bytes.splitOn ';'.toNat.toUInt8)

end LineMap

end Easel
