import Easel.Compilation
import Easel.Path
import Easel.Project.Color

/-!
# Project configurations

A project has a file that says what is compiled and how. Fields it leaves out have defaults, and a
configuration is taken only if it is valid.
-/

namespace Easel

/-- The canvas of a project. -/
structure Canvas where
  id : RawText := ""
  width : Int := 0
  height : Int := 0
  background : RawText := ""
  deriving DecidableEq, Repr

/-- What a project compiles and how. -/
structure Config where
  entry : RawText := ""
  output : RawText := ""
  canvas : Canvas := {}
  fps : Int := 0
  minify : Bool := false
  lineMap : Bool := false
  deriving DecidableEq, Repr

namespace Config

/-- The name of the configuration file. -/
def fileName : String := "mflow.config.json"

/-- The configuration of a project that says nothing. -/
def default : Config where
  entry := "src/main.mflow"
  output := "dist/main.js"
  canvas := ⟨Script.defaultCanvas, 800, 600, "#0D0B0A"⟩

/-- Why a document is no configuration. -/
inductive Error where
  | malformed
  | emptyEntry
  | emptyOutput
  | canvasId (id : RawText)
  | canvasSize (width height : Int)
  | fps (n : Int)
  | background (e : Color.Error)
  deriving DecidableEq, Repr

def Error.message : Error → String
  | .malformed => "decoding " ++ fileName
  | .emptyEntry => "config: entry is empty"
  | .emptyOutput => "config: output is empty"
  | .canvasId id => "config: canvas id " ++ id.quote ++ " is not a valid element id"
  | .canvasSize width height => s!"config: canvas size {width}x{height} must be positive"
  | .fps n => s!"config: fps {n} out of range 0-240"
  | .background e => "config: canvas background: " ++ e.message

/-! ## Validity -/

/-- Whether a character may stand in an element id. -/
def isIdChar (c : Char) : Bool := c.isAlphanum || c == '_' || c == '-' || c == ':' || c == '.'

/-- Whether a text is an element id. -/
def isElementId (s : String) : Bool :=
  match s.toList with
  | [] => false
  | c :: cs => c.isAlpha && cs.all isIdChar

/-- The configuration with its background in canonical form, if it is valid. An empty canvas id
stands for the default. -/
def validate (c : Config) : Except Error Config :=
  if c.entry.isEmpty then .error .emptyEntry
  else if c.output.isEmpty then .error .emptyOutput
  else if !c.canvas.id.isEmpty && !isElementId c.canvas.id.text then .error (.canvasId c.canvas.id)
  else if c.canvas.width ≤ 0 ∨ c.canvas.height ≤ 0 then
    .error (.canvasSize c.canvas.width c.canvas.height)
  else if c.fps < 0 ∨ 240 < c.fps then .error (.fps c.fps)
  else match Color.resolve c.canvas.background with
    | .error e => .error (.background e)
    | .ok color => .ok { c with canvas := { c.canvas with background := color } }

/-! ## Reading and writing -/

/-- The fields of a canvas in a document. -/
def canvasFields : List (Json.Field Canvas) := [
  .of "background" Json.string (·.background) fun c v => { c with background := v },
  .of "height" Json.int (·.height) fun c v => { c with height := v },
  .of "id" Json.string (·.id) fun c v => { c with id := v },
  .of "width" Json.int (·.width) fun c v => { c with width := v }]

/-- The fields of a document. -/
def fields : List (Json.Field Config) := [
  .of "canvas" (Json.object 2 canvasFields) (·.canvas) fun c v => { c with canvas := v },
  .of "entry" Json.string (·.entry) fun c v => { c with entry := v },
  .of "fps" Json.int (·.fps) fun c v => { c with fps := v },
  .of "minify" Json.bool (·.minify) fun c v => { c with minify := v },
  .of "output" Json.string (·.output) fun c v => { c with output := v },
  .of "sourcemap" Json.bool (·.lineMap) fun c v => { c with lineMap := v }]

/-- The valid configuration a document holds. -/
def parse (bytes : ByteArray) : Except Error Config :=
  match Json.document fields default bytes with
  | none => .error .malformed
  | some c => c.validate

/-- The configuration as JSON. An empty canvas id and a zero frame rate are left out. -/
def toJson (c : Config) : Json.Value :=
  .object ([("entry", .string c.entry), ("output", .string c.output),
    ("canvas", .object ((if c.canvas.id.isEmpty then [] else [("id", .string c.canvas.id)]) ++
      [("width", .int c.canvas.width), ("height", .int c.canvas.height),
        ("background", .string c.canvas.background)]))] ++
    (if c.fps = 0 then [] else [("fps", .int c.fps)]) ++
    [("minify", .bool c.minify), ("sourcemap", .bool c.lineMap)])

/-- The text of the configuration file. -/
def print (c : Config) : String := c.toJson.pretty 0 ++ "\n"

/-- How the project is compiled. -/
def options (c : Config) : Options where
  canvas := c.canvas.id.text
  fps := c.fps
  minify := c.minify
  lineMap := c.lineMap
  sourceName := Path.base c.entry
  outputName := Path.base c.output

end Config

end Easel
