import Easel.Proofs.Command.Build
import Easel.Proofs.Command.Session
import Easel.Proofs.Project.RoundTrip
import Easel.Proofs.Script.Quoting

/-!
# The canvas id in the scripts of a command

A command takes the id of the canvas from a flag, or from the configuration.  The configuration is
checked, so its id is read back from every script.  A flag is not: an id from it is read back just if
it has no backslash and no end of a line in it (`canvas_literal_denotes_iff`).
-/

namespace Easel

open Script Script.Literal

/-! ## Element ids -/

theorem bare_of_isIdChar {c : Char} (h : Config.isIdChar c = true) (ends : LineEnds) :
    c ≠ '\\' ∧ ends.isEnd c = false := by
  refine ⟨?_, ends.isEnd_of_bare (Bool.eq_false_iff.2 fun hend => ?_)⟩
  · rintro rfl
    exact absurd h (by decide)
  · have hmem : c ∈ ['\n', '\r', '\u2028', '\u2029'] := List.contains_iff_mem.1 hend
    have hnone : ['\n', '\r', '\u2028', '\u2029'].all (fun c => !Config.isIdChar c) = true := by
      decide
    have hnot := List.all_eq_true.1 hnone c hmem
    rw [h] at hnot
    cases hnot

theorem bare_of_isElementId {id : String} (h : Config.isElementId id = true) (ends : LineEnds) :
    Bare ends id.toList := by
  unfold Config.isElementId at h
  split at h
  · cases h
  · next c cs hid =>
    rw [Bool.and_eq_true] at h
    rw [hid]
    have hfirst : Config.isIdChar c = true := by
      simp [Config.isIdChar, Char.isAlphanum, h.1]
    refine List.forall_mem_cons.2 ⟨bare_of_isIdChar hfirst ends, fun c hc => ?_⟩
    exact bare_of_isIdChar (List.all_eq_true.1 h.2 c hc) ends

namespace Command

variable {h : Host} {c : Console} {a : Arguments} {config : Option Config} {js : List Job} {j : Job}
  {source : String} {b : Build}

theorem valid_of_configAt {directory : RawText} {found : Config}
    (hconfig : configAt h directory = .ok (some found)) : found.Valid := by
  unfold configAt at hconfig
  split at hconfig
  · split at hconfig <;> cases hconfig
  · split at hconfig
    · cases hconfig
    · next config hparse =>
      cases hconfig
      unfold Config.parse at hparse
      split at hparse
      · cases hparse
      · exact (Config.valid_of_validate hparse).1

/-- The id that a flag or else the configuration gives to the canvas; empty for the default. -/
def namedCanvas (a : Arguments) (config : Option Config) : String :=
  (a.text? "canvas").getD ((config.map fun found => found.canvas.id.text).getD "")

theorem canvas_of_mem_jobs (hjobs : jobs c a config = .ok js) (hj : j ∈ js) :
    j.options.canvas = namedCanvas a config := by
  obtain ⟨files, -, rfl, -⟩ := jobs_eq_ok hjobs
  obtain ⟨input, -, rfl⟩ := List.mem_map.1 hj
  cases config <;> rfl

/-- Without a flag the id is read back from every script. -/
theorem bare_canvasId (hconfig : configAt h c.directory = .ok config)
    (hcanvas : j.options.canvas = namedCanvas a config) (hflag : a.text? "canvas" = none)
    (ends : LineEnds) : Bare ends j.options.canvasId.toList := by
  rw [Style.canvasId]
  split
  · exact bare_of_isElementId (by decide +kernel) ends
  · next hnamed =>
    rw [hcanvas, namedCanvas, hflag] at hnamed ⊢
    cases config with
    | none => exact absurd rfl hnamed
    | some found =>
      refine bare_of_isElementId ((valid_of_configAt hconfig).id.resolve_left ?_) ends
      rwa [← RawText.isEmpty_text]

/-- The literal by which a script looks up its canvas denotes the id of the canvas and ends at the
quote behind it just if the id has no backslash and no end of a line.  So it is with each id that the
configuration gives, but not with each that a flag gives. -/
theorem canvas_literal_denotes_iff (hconfig : configAt h c.directory = .ok config)
    (hjobs : jobs c a config = .ok js) (hj : j ∈ js) (hcompile : compile j.options source = .ok b) :
    let style := j.options.toStyle
    let named := namedCanvas a config
    (style.canvasId = if named.isEmpty then defaultCanvas else named) ∧
      (a.text? "canvas" = none → ∀ ends : LineEnds, Bare ends style.canvasId.toList) ∧
      ∃ p literal rest, b.script = generate style p ∧ LooksUp style p literal rest ∧
        ∀ ends : LineEnds,
          read ends.isEnd .text literal = some (units style.canvasId.toList,
            [')', ';', '\n'] ++ (print (style.laid rest)).toList) ↔
          Bare ends style.canvasId.toList := by
  intro style named
  have hcanvas := canvas_of_mem_jobs hjobs hj
  obtain ⟨literal, rest, hlooks, hread⟩ := exists_looksUp style (parse (Token.lex source)).1
  refine ⟨?_, bare_canvasId hconfig hcanvas, _, literal, rest, ?_, hlooks, hread⟩
  · rw [Style.canvasId, hcanvas]
  · rw [compile_eq_ok hcompile, Program.script_build]
    rfl

/-- A backslash at the end of a flag escapes the quote that is to close the literal, while a quote in
a flag does no harm. -/
theorem canvas_literal_denotes_iff_flag :
    let h : Host := ⟨[([RawText.ofString "a.mflow"], .file "let x = 1".toUTF8 false)]⟩
    let c : Console := { directory := "/" }
    let flag (id : String) : Arguments := { values := [("canvas", .text id)], files := ["a.mflow"] }
    let options (id : String) : Options :=
      { canvas := id, sourceName := "a.mflow", outputName := "a.js" }
    configAt h c.directory = .ok none ∧
      (readArguments compileFlags ["--canvas", "a\\", "a.mflow"] {} = .ok (flag "a\\") ∧
        jobs c (flag "a\\") none = .ok [⟨"/a.mflow", "/a.js", options "a\\"⟩] ∧
        ∃ b p literal rest, compile (options "a\\") "let x = 1" = .ok b ∧
          b.script = generate (options "a\\").toStyle p ∧
          LooksUp (options "a\\").toStyle p literal rest ∧
          ∀ ends : LineEnds, read ends.isEnd .text literal ≠ some (units "a\\".toList,
            [')', ';', '\n'] ++ (print rest).toList)) ∧
      readArguments compileFlags ["--canvas", "a\"b", "a.mflow"] {} = .ok (flag "a\"b") ∧
        jobs c (flag "a\"b") none = .ok [⟨"/a.mflow", "/a.js", options "a\"b"⟩] ∧
        ∃ b p literal rest, compile (options "a\"b") "let x = 1" = .ok b ∧
          b.script = generate (options "a\"b").toStyle p ∧
          LooksUp (options "a\"b").toStyle p literal rest ∧
          ∀ ends : LineEnds, read ends.isEnd .text literal = some (units "a\"b".toList,
            [')', ';', '\n'] ++ (print rest).toList) := by
  intro h c flag options
  have hconfig : configAt h c.directory = .ok none := by decide +kernel
  have hcheck : check "let x = 1" = [] := by decide +kernel
  have hback : jobs c (flag "a\\") none = .ok [⟨"/a.mflow", "/a.js", options "a\\"⟩] := by
    decide +kernel
  have hquote : jobs c (flag "a\"b") none = .ok [⟨"/a.mflow", "/a.js", options "a\"b"⟩] := by
    decide +kernel
  refine ⟨hconfig, ⟨by decide +kernel, hback, ?_⟩, by decide +kernel, hquote, ?_⟩
  · obtain ⟨-, -, p, literal, rest, hscript, hlooks, hread⟩ := canvas_literal_denotes_iff hconfig hback
      (List.mem_singleton_self _) (compile_of_check hcheck)
    refine ⟨_, p, literal, rest, compile_of_check hcheck, hscript, hlooks, fun ends heq => ?_⟩
    have hbare := (hread ends).1 heq
    exact (hbare '\\' (by decide)).1 rfl
  · obtain ⟨-, -, p, literal, rest, hscript, hlooks, hread⟩ := canvas_literal_denotes_iff hconfig hquote
      (List.mem_singleton_self _) (compile_of_check hcheck)
    refine ⟨_, p, literal, rest, compile_of_check hcheck, hscript, hlooks, fun ends => ?_⟩
    exact (hread ends).2 (bare_of_all (by decide) ends)

end Command

end Easel
