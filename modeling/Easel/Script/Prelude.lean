import Easel.Numeral.Layout
import Easel.Script.Basic
import Easel.Text.Basic

/-!
# The prelude of a script

Every script starts with the same definitions, which refer to the canvas by its element id and
advance the clock by a fixed tick per frame.
-/

namespace Easel.Script

/-- The element id of the canvas where none is given. -/
def defaultCanvas : String := "mflow-canvas"

/-- The seconds per frame where no rate is given. -/
def defaultTick : String := "0.016"

/-- The decimal without zeros at its end, of which at most `n` are removed. -/
def dropZeros : Nat → Decimal → Decimal
  | 0, d => d
  | n + 1, d =>
    if d.coefficient % 10 = 0 then dropZeros n ⟨d.coefficient / 10, d.exponent + 1⟩ else d

/-- The seconds per frame at a rate, to the nearest ten thousandth, a half going up. -/
def tick (fps : Int) : String :=
  if fps ≤ 0 then defaultTick
  else
    let parts := (20000 + fps.toNat) / (2 * fps.toNat)
    if parts = 0 then "0" else (dropZeros 4 ⟨parts, -4⟩).format Numeral.scriptLayout

/-- The text with a backslash before each double quote. -/
def escapeQuotes (s : String) : String :=
  String.ofList (s.toList.flatMap fun c => if c = '"' then ['\\', '"'] else [c])

/-- The rows of the prelude that set up the drawing context and the state of the runtime. -/
def runtimeRows : List String := [
  r#"const ctx = canvas.getContext("2d");"#,
  r#"if (!ctx) { console.error("Cannot get 2D context"); }"#,
  "",
  "// Initialize MFlow runtime",
  r"(function() {",
  r"  const mflow = {",
  "    mouseX: 0,",
  "    mouseY: 0,",
  "    time: 0,",
  "    frameCount: 0,",
  r"    keys: {},",
  "    canvas: canvas,",
  "    ctx: ctx",
  r"  };",
  "  window.mflow = mflow;",
  r#"  document.addEventListener("mousemove", (e) => {"#,
  "    const rect = canvas.getBoundingClientRect();",
  "    mflow.mouseX = e.clientX - rect.left;",
  "    mflow.mouseY = e.clientY - rect.top;",
  r"  });",
  r#"  document.addEventListener("keydown", (e) => { mflow.keys[e.key] = true; });"#,
  r#"  document.addEventListener("keyup", (e) => { mflow.keys[e.key] = false; });"#]

/-- The rows of the prelude after the clock has been set up. -/
def helperRows : List String := [
  "  updateTime();",
  r"})();",
  "",
  "// Math functions (built-in)",
  "const sin = Math.sin, cos = Math.cos, tan = Math.tan;",
  "const sqrt = Math.sqrt, pow = Math.pow, abs = Math.abs;",
  "const floor = Math.floor, ceil = Math.ceil, round = Math.round;",
  "const min = Math.min, max = Math.max;",
  "const random = (min, max) => max === undefined ? Math.random() * min : Math.random() * (max - min) + min;",
  r"const noise = (x, y, z) => { const n = x * 12.9898 + y * 78.233 + (z || 0) * 37.719; return ((Math.sin(n) * 43758.5453123) % 1 + 1) / 2; };",
  "const PI = Math.PI, TWO_PI = Math.PI * 2, HALF_PI = Math.PI / 2;",
  "const mouseX = () => window.mflow.mouseX;",
  "const mouseY = () => window.mflow.mouseY;",
  "const time = () => window.mflow.time;",
  "const frameCount = () => window.mflow.frameCount;",
  "",
  "// Interpolation and color helpers",
  "const lerp = (a, b, t) => a + (b - a) * t;",
  "const map = (value, start1, stop1, start2, stop2) => start2 + (stop2 - start2) * ((value - start1) / (stop1 - start1));",
  "const constrain = (value, lo, hi) => Math.min(Math.max(value, lo), hi);",
  "const dist = (x1, y1, x2, y2) => Math.sqrt((x2 - x1) ** 2 + (y2 - y1) ** 2);",
  "const radians = (deg) => deg * Math.PI / 180;",
  "const degrees = (rad) => rad * 180 / Math.PI;",
  r#"const rgb = (r, g, b) => "rgb(" + Math.round(r) + ", " + Math.round(g) + ", " + Math.round(b) + ")";"#,
  r#"const rgba = (r, g, b, a) => "rgba(" + Math.round(r) + ", " + Math.round(g) + ", " + Math.round(b) + ", " + a + ")";"#,
  r#"const hsl = (h, s, l) => "hsl(" + h + ", " + s + "%, " + l + "%)";"#,
  r#"const hsla = (h, s, l, a) => "hsla(" + h + ", " + s + "%, " + l + "%, " + a + ")";"#,
  "",
  "// Animation state",
  r"let animationState = {",
  "  x: 0,",
  "  y: 0,",
  "  rotation: 0,",
  "  scale: 1,",
  "  opacity: 1",
  r"};",
  "",
  "// Helper functions",
  r"function resetTransform() {",
  "  ctx.setTransform(1, 0, 0, 1, 0, 0);",
  r"}",
  "",
  r"function applyTransform(x, y) {",
  "  ctx.translate(x + animationState.x, y + animationState.y);",
  "  ctx.rotate(animationState.rotation * Math.PI / 180);",
  "  ctx.scale(animationState.scale, animationState.scale);",
  "  ctx.globalAlpha = animationState.opacity;",
  r"}",
  "",
  "// Clear canvas",
  r"function clear() {",
  "  ctx.clearRect(0, 0, canvas.width, canvas.height);",
  r"}"]

/-- The rows of the prelude for a canvas id, already escaped, and a tick. -/
def preludeRows (canvas tick : String) : List String :=
  ["// MFlow compiled output - Enhanced Version",
    r#"const canvas = document.getElementById(""# ++ canvas ++ r#"");"#,
    r#"if (!canvas) { console.error("Canvas not found: "# ++ canvas ++ r#""); }"#] ++ runtimeRows ++
  [r"  function updateTime() { mflow.time += " ++ tick ++
    r"; mflow.frameCount++; requestAnimationFrame(updateTime); }"] ++ helperRows

/-- The prelude for a canvas id, already escaped, and a tick. -/
def preludeText (canvas tick : String) : String := Text.unlines (preludeRows canvas tick)

/-- The prelude as a script. -/
def prelude (canvas : String) (fps : Int) : Script :=
  ofText (preludeText (escapeQuotes canvas) (tick fps))

end Easel.Script
