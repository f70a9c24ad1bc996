import Easel.Proofs.LineMap.Exact

/-!
# Main programs are lexically well formed

The text of a program from its main function on is well formed exactly if no line ends in it other
than by a line feed.  Only the strings of the source can bring such an end of a line into it.
-/

namespace Easel

open Script

variable {ends : LineEnds} {Q : Char → Prop}

/-! ## Main programs -/

/-- The text from the row on that opens the main function. -/
def mainText (text : String) : List Char :=
  List.intercalate ['\n'] ((rowsOf text).dropWhile (· != mainRow))

theorem intercalate_rows (rows : List (List Char)) :
    List.intercalate ['\n'] (rows ++ [[]]) = rows.flatMap (· ++ ['\n']) := by
  induction rows with
  | nil => rfl
  | cons row rows ih =>
    rw [List.flatMap_cons, ← ih]
    cases rows <;> simp [List.intercalate]

/-- Behind rows that do not open the main function, the main text starts. -/
theorem mainText_print {s : Script} {before ls : List Line} (hrows : ∀ l ∈ s.lines, l.IsRow)
    (hlines : s.lines = before ++ mainLine :: ls) (hbefore : ∀ l ∈ before, l.Outside) :
    mainText s.print = (mainLine :: ls).flatMap fun l => l.row ++ ['\n'] := by
  have houtside : ∀ row ∈ before.map Line.row, (row != mainRow) = true := by
    refine List.forall_mem_map.2 fun l hl => bne_iff_ne.2 ((hbefore l hl).row_ne (hrows l ?_))
    rw [hlines]
    exact List.mem_append_left _ hl
  have hmain : mainLine.row = mainRow := rfl
  rw [mainText, rowsOf_print hrows, hlines, List.map_append, List.append_assoc,
    List.dropWhile_append_of_pos houtside, List.map_cons, List.cons_append,
    List.dropWhile_cons_of_neg (by simp [hmain]), ← List.cons_append, ← List.map_cons,
    intercalate_rows, List.flatMap_map]

/-- The main text of a program in any style. -/
theorem Program.mainText_generate {p : Program} (h : Leads .fresh (Stmt.scripts {} p).2 .fresh)
    {style : Style} (hcanvas : '\n' ∉ style.canvas.toList) :
    mainText (generate style p) =
      (mainLine :: (lines (p.bodyTrace style.minify).script ++ [endLine])).flatMap
        fun l => l.row ++ ['\n'] := by
  obtain ⟨before, hbefore, hlines⟩ := Program.exists_lines_script h hcanvas
  exact mainText_print (Program.isRow_script h style) hlines hbefore

/-- The rows of the body spell a text that closes its brackets. -/
theorem Program.spells_body {p : Program}
    (h : Closed ends Q .fresh (Stmt.scripts {} p).2 .fresh) (minify : Bool) (a : List Char) :
    Spells ends Q a ((lines (p.bodyTrace minify).script).flatMap fun l => l.row ++ ['\n']) a := by
  obtain ⟨hleads, hspells⟩ := h.indented a
  rw [p.script_bodyTrace]
  cases minify with
  | false => exact Spells.rows hleads (hspells true)
  | true =>
    have hcompact : Spells ends Q a (flat true (compact (indented (Stmt.scripts {} p).2))) a := by
      rw [flat_compact]
      exact hspells false
    exact Spells.rows hleads.compact hcompact

theorem spells_mainLine : Spells ends Q [] (mainLine.row ++ ['\n']) ['}', ')'] := by
  have hrow : Turns [] mainLine.row ['}', ')'] := by decide
  exact hrow.spells.append (spells_lineFeed _)

theorem spells_endLine : Spells ends Q ['}', ')'] (endLine.row ++ ['\n']) [] := by
  have hrow : Turns ['}', ')'] endLine.row [] := by decide
  exact hrow.spells.append (spells_lineFeed _)

/-- The character stands in a string of the source. -/
def StandsInString (source : String) (c : Char) : Prop :=
  ∃ t ∈ Token.lex source, t.kind = .string ∧ c ∈ t.lexeme.toList

theorem wellFormed_iff_of_reads {text : List Char} (h : Reads ends [] text []) :
    WellFormed ends.isEnd text ↔ ∀ c ∈ text, ends.isEnd c = true → c = '\n' := by
  have hrun : WellFormed ends.isEnd text ↔ text.any ends.isOdd = false := by
    rw [WellFormed, show ({} : Reader) = ⟨.code, []⟩ from rfl, h]
    cases text.any ends.isOdd <;> simp
  rw [hrun, List.any_eq_false]
  simp [LineEnds.isOdd]

/-- From the row on that opens the main function, the text of a program is well formed exactly if no
line ends in it other than by a line feed, whatever else ends lines.  Of the characters that may do
so, all but line feeds stand in strings of the source. -/
theorem wellFormed_main_iff (source : String) {style : Style}
    (hcanvas : '\n' ∉ style.canvas.toList) :
    let main := mainText (generate style (parse (Token.lex source)).1)
    mainRow <+: main ∧
      (∀ ends : LineEnds,
        WellFormed ends.isEnd main ↔ ∀ c ∈ main, ends.isEnd c = true → c = '\n') ∧
      ∀ c ∈ main, isLineTerminator c = true → c = '\n' ∨ StandsInString source c := by
  intro main
  have hmain : main = _ := Program.mainText_generate (leads_parse source) hcanvas
  have hspells (ends : LineEnds) : Spells ends (StandsInString source) [] main [] := by
    have hclosed : Closed ends (StandsInString source) .fresh _ .fresh :=
      closed_parse ends fun t ht hk _ hc => ⟨t, ht, hk, hc⟩
    have hbody := Program.spells_body hclosed style.minify ['}', ')']
    rw [hmain, List.flatMap_cons, List.flatMap_append, List.flatMap_singleton]
    exact spells_mainLine.append (hbody.append spells_endLine)
  refine ⟨?_, fun ends => wellFormed_iff_of_reads (hspells ends).reads, (hspells .all).allowed⟩
  rw [hmain, List.flatMap_cons, List.append_assoc]
  exact List.prefix_append _ _

/-- A carriage return in a string stays as it is.  Where it ends a line, the literal is open
there. -/
theorem wellFormed_main_carriage_return :
    let main := mainText (generate {} (parse (Token.lex "let s = \"(\rb\"")).1)
    '\n' ∉ ({} : Style).canvas.toList ∧ WellFormed LineEnds.lineFeeds.isEnd main ∧
      ¬ WellFormed LineEnds.all.isEnd main := by
  intro main
  have hcanvas : '\n' ∉ ({} : Style).canvas.toList := by decide
  obtain ⟨-, hiff, -⟩ := wellFormed_main_iff "let s = \"(\rb\"" hcanvas
  have hreturn : '\r' ∈ main := by
    rw [show main = _ from Program.mainText_generate (leads_parse _) hcanvas]
    decide +kernel
  refine ⟨hcanvas, (hiff .lineFeeds).2 fun c _ hc => beq_iff_eq.1 hc, fun hformed => ?_⟩
  exact absurd ((hiff .all).1 hformed '\r' hreturn rfl) (by decide)

end Easel
