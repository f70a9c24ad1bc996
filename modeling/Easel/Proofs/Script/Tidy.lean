import Easel.Proofs.Script.Written

/-!
# Layout is all that goes

The script of a program that is read from a source is tidy (`Program.tidy_fullScript`), whatever the
canvas id: it consists of whole lines.  So leaving out the layout takes the blanks at the start of
its rows, its empty rows and its comments away, and nothing else.
-/

namespace Easel

open Script

/-- A program that is read from a source is written in whole lines. -/
theorem leads_parse (source : String) :
    Leads .fresh (Stmt.scripts {} (parse (Token.lex source)).1).2 .fresh :=
  (closed_parse (Q := fun _ => True) .all (fun _ _ _ _ _ => trivial) []).leads

theorem leads_indented {s : Script} {a b : Spot} (h : Leads a s b) : Leads a (indented s) b :=
  (leads_map (f := fun i => { i with indent := i.indent + 1 }) fun _ => rfl).2 h

/-- The script of a program behind the prelude. -/
def Program.mainScript (p : Program) : Script :=
  Script.comment "Main program" ++ (code "(function " ++ (bind "main" .pattern ++
    (code r"() {" ++ (lineEnd ++ braced r"})();" (Stmt.scripts {} p).2))))

theorem Program.fullScript_eq (canvas : String) (fps : Int) (p : Program) :
    p.fullScript canvas fps = prelude canvas fps ++ (blankLine ++ p.mainScript) := by
  simp [Program.fullScript, Program.mainScript, braced]

theorem Program.leads_mainScript {p : Program} (h : Leads .fresh (Stmt.scripts {} p).2 .fresh) :
    Leads .fresh p.mainScript .fresh := by
  have hopening : Leads .fresh (Script.comment "Main program" ++ (code "(function " ++
      (bind "main" .pattern ++ (code r"() {" ++ lineEnd)))) .fresh := by decide +kernel
  have hscope : Leads .fresh (inScope (indented (Stmt.scripts {} p).2)) .fresh := by
    have hleave : Leads .fresh [{ content := .leave }] .fresh := rfl
    exact leads_cons.2 ⟨.fresh, rfl, (leads_indented h).append hleave⟩
  have hclosing : Leads .fresh (Script.line r"})();") .fresh := by decide +kernel
  simpa [Program.mainScript, braced] using hopening.append (hscope.append hclosing)

theorem Program.tidy_fullScript {p : Program} (h : Leads .fresh (Stmt.scripts {} p).2 .fresh)
    (canvas : String) (fps : Int) : Tidy (p.fullScript canvas fps) := by
  rw [p.fullScript_eq]
  exact (Tidy.ofText _).append (Tidy.blankLine.1.append (leads_mainScript h).tidy.1)

/-- Without layout, the script of a program is the text of its full script without the blanks its
rows start with, its empty rows and its comments.  The lines that are left have the origins they
have in the full script. -/
theorem generate_minified (source canvas : String) (fps : Int) :
    let p := (parse (Token.lex source)).1
    let plain := generate { canvas, fps, minify := false } p
    generate { canvas, fps, minify := true } p = withoutLayout plain ∧
      (p.script { canvas, fps, minify := true }).origins =
        (((p.script { canvas, fps, minify := false }).origins).filter
          fun (n, _) => keepsRow plain n).map fun (n, q) => (keptNumber plain n, q) := by
  intro p plain
  have htidy : Tidy (p.script { canvas, fps, minify := false }) :=
    Program.tidy_fullScript (leads_parse source) _ fps
  exact ⟨print_compact htidy, origins_compact htidy⟩

end Easel
