import Easel.Text.Raw

/-!
# Slash-separated paths

Paths are texts of segments separated by slashes. A clean path has no empty segment, no `.` and no
`..` except at the start of a relative path; an empty path is the current directory.
-/

namespace Easel.Path

/-- The glyph between segments. -/
def slash : Text.Glyph := .char '/'

/-- The glyph before an extension. -/
def dot : Text.Glyph := .char '.'

/-- The segments between slashes. -/
def split (p : RawText) : List RawText := (p.glyphs.splitOn slash).map RawText.mk

/-- Whether a path starts at the root. -/
def isAbsolute (p : RawText) : Bool := p.glyphs.head? == some slash

/-- One more segment after clean ones, which are given from the last to the first. -/
def push (rooted : Bool) (clean : List RawText) (segment : RawText) : List RawText :=
  if segment = "" ∨ segment = "." then clean
  else if segment = ".." then
    match clean with
    | last :: rest => if last = ".." then segment :: clean else rest
    | [] => if rooted then [] else [segment]
  else segment :: clean

/-- The segments of the clean form of a path. -/
def cleanSegments (p : RawText) : List RawText :=
  ((split p).foldl (push (isAbsolute p)) []).reverse

/-- A path from clean segments. -/
def ofSegments (rooted : Bool) (segments : List RawText) : RawText :=
  let body := List.intercalate [slash] (segments.map RawText.glyphs)
  if rooted then ⟨slash :: body⟩ else if segments.isEmpty then "." else ⟨body⟩

/-- The shortest path that means the same, read as text. -/
def clean (p : RawText) : RawText := ofSegments (isAbsolute p) (cleanSegments p)

/-- A path read from a directory. -/
def join (directory p : RawText) : RawText :=
  if directory.isEmpty then (if p.isEmpty then "" else clean p)
  else clean (directory ++ "/" ++ p)

/-- The glyphs up to and including the last slash. -/
def throughLastSlash (gs : List Text.Glyph) : List Text.Glyph :=
  (gs.reverse.dropWhile (· != slash)).reverse

/-- The glyphs after the last slash. -/
def afterLastSlash (gs : List Text.Glyph) : List Text.Glyph :=
  (gs.reverse.takeWhile (· != slash)).reverse

/-- The directory a path lies in. -/
def parent (p : RawText) : RawText := clean ⟨throughLastSlash p.glyphs⟩

/-- The last segment of a path. -/
def base (p : RawText) : RawText :=
  if p.isEmpty then "."
  else
    let trimmed := (p.glyphs.reverse.dropWhile (· == slash)).reverse
    if trimmed.isEmpty then "/" else ⟨afterLastSlash trimmed⟩

/-- The extension of the last segment with its dot, or nothing. -/
def extension (p : RawText) : List Text.Glyph :=
  let last := afterLastSlash p.glyphs
  if last.contains dot then dot :: (last.reverse.takeWhile (· != dot)).reverse else []

/-- The path with another extension, which includes its dot. -/
def replaceExtension (p ext : RawText) : RawText :=
  ⟨p.glyphs.take (p.glyphs.length - (extension p).length)⟩ ++ ext

/-- The path without its extension. -/
def withoutExtension (p : RawText) : RawText := replaceExtension p ""

/-- The absolute path of `p` seen from the directory `directory`. -/
def resolve (directory p : RawText) : RawText :=
  if isAbsolute p then clean p else clean (join directory p)

end Easel.Path
