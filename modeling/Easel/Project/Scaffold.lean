import Easel.Project.Config
import Easel.Workspace.Basic

/-!
# New projects

A new project has a configuration, an entry, a file of shapes that the entry imports, and a place
for what is compiled.
-/

namespace Easel.Config

/-- The entry of a new project. -/
def entryText : String := Text.unlines [
  "// Entry point",
  "import star from \"shapes/custom.mflow\"",
  "",
  "let sunSize = 60",
  "let sunColor = #F5A623",
  "",
  r"fn drawSun(x, y) {",
  "  circle at (x, y) size sunSize color sunColor",
  r"}",
  "",
  r"scene sky {",
  "  drawSun(400, 300)",
  "  star(200, 150, 40)",
  r"}",
  "",
  r"animate {",
  "  rotate 1",
  "  pulse 0.9 1.1 2",
  r"}"]

/-- The shapes of a new project. -/
def shapesText : String := Text.unlines [
  "// Shapes shared across the project",
  r"fn star(x, y, r) {",
  "  polygon at (x, y) sides 5 radius r color #FFD166",
  r"}"]

/-- The files of a new project, in the order they are written. -/
def scaffoldFiles (c : Config) : List (RawText × String) := [
  (fileName, c.print), (c.entry, entryText), ("src/shapes/custom.mflow", shapesText),
  ("dist/.gitkeep", "")]

/-- A workspace with the files of a new project. -/
def scaffold (c : Config) : Except Workspace.Error Workspace :=
  c.scaffoldFiles.foldlM (fun w (name, text) => w.write name text.toUTF8) {}

end Easel.Config
