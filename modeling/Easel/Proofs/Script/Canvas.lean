import Easel.Compilation
import Easel.Proofs.Script.Rows

/-!
# The canvas of a script

A script looks its canvas up by its element id.  This is a line of its prelude, so it is there with
the layout and without it: `lookup_infix_generate`, `Program.lookup_infix_build`.
-/

namespace Easel.Script

variable {text : String} {row : List Char} {id : String}

/-- The code that looks up an element by its id. -/
def lookup (id : String) : String := "document.getElementById(\"" ++ escapeQuotes id ++ "\")"

/-- A row of a fixed text that shows something is a line of it, without its indentation. -/
theorem exists_line_of_row (hrow : row ∈ rowsOf text) (hshown : trimRow row ≠ []) :
    ∃ level, ⟨level, none, String.ofList (trimRow row)⟩ ∈ lines (ofText text) := by
  have hlines {cs : List Char} (hmem : row ∈ cs.splitOn '\n') :
      ∃ level, ⟨level, none, String.ofList (trimRow row)⟩ ∈
        lines ((cs.splitOn '\n').flatMap ofTextLine) := by
    have hsplit := not_mem_of_mem_splitOn '\n' cs
    rw [Tidy.lines_flatMap fun row hrow => (Tidy.ofTextLine (hsplit row hrow)).1]
    obtain ⟨-, level, hline⟩ := Tidy.ofTextLine (hsplit row hmem)
    exact ⟨level, List.mem_flatMap.2 ⟨row, hmem, hline ▸ List.mem_singleton_self _⟩⟩
  unfold ofText
  simp only
  split
  · next hlast =>
    have htext : text.toList = text.toList.dropLast ++ ['\n'] :=
      (List.dropLast_append_getLast? _ hlast).symm
    rw [rowsOf, htext, List.splitOn_append_cons_self, List.splitOn_nil, List.mem_append,
      List.mem_singleton] at hrow
    refine hlines (hrow.resolve_right fun hnil => hshown ?_)
    rw [hnil]
    rfl
  · exact hlines hrow

theorem mem_rowsOf {row : String} (hrow : '\n' ∉ row.toList) (before after : String) :
    row.toList ∈ rowsOf (before ++ "\n" ++ row ++ "\n" ++ after) := by
  have hsplit : (before ++ "\n" ++ row ++ "\n" ++ after).toList =
      before.toList ++ '\n' :: (row.toList ++ '\n' :: after.toList) := by
    simp
  rw [rowsOf, hsplit, List.splitOn_append_cons_self,
    List.splitOn_append_cons_self_of_not_mem hrow]
  exact List.mem_append_right _ List.mem_cons_self

theorem lineFeed_not_mem_escapeQuotes (h : '\n' ∉ text.toList) :
    '\n' ∉ (escapeQuotes text).toList := by
  rw [escapeQuotes, String.toList_ofList, List.mem_flatMap]
  rintro ⟨c, hc, hmem⟩
  split at hmem
  · exact absurd hmem (by decide)
  · rw [List.mem_singleton] at hmem
    exact h (hmem ▸ hc)

/-- The row of the prelude that looks up the canvas. -/
def lookupRow (id : String) : String := "const canvas = " ++ lookup id ++ ";"

theorem exists_toList_lookupRow (id : String) :
    ∃ start, '\n' ∉ start ∧
      (lookupRow id).toList = 'c' :: (start ++ ((lookup id).toList ++ [';'])) := by
  have hstart : "const canvas = ".toList = 'c' :: "onst canvas = ".toList := by decide
  have hend : ";".toList = [';'] := by decide
  refine ⟨"onst canvas = ".toList, lineFeed_not_mem_ofList (by decide), ?_⟩
  unfold lookupRow
  rw [String.toList_append, String.toList_append, hstart, hend, List.append_assoc, List.cons_append]

theorem lineFeed_not_mem_lookup (hid : '\n' ∉ id.toList) : '\n' ∉ (lookup id).toList := by
  unfold lookup
  rw [String.toList_append, String.toList_append, List.mem_append, List.mem_append]
  rintro ((hmem | hmem) | hmem)
  · exact absurd hmem (lineFeed_not_mem_ofList (by decide))
  · exact lineFeed_not_mem_escapeQuotes hid hmem
  · exact absurd hmem (lineFeed_not_mem_ofList (by decide))

/-! ## Rows of the prelude -/

theorem unlines_append (rows rows' : List String) :
    Text.unlines (rows ++ rows') = Text.unlines rows ++ Text.unlines rows' := by
  induction rows with
  | nil => exact String.empty_append.symm
  | cons row rows ih =>
    simp only [List.cons_append, Text.unlines, ih, String.append_assoc]

theorem unlines_cons_ne_empty (row : String) (rows : List String) :
    Text.unlines (row :: rows) ≠ "" := by
  simp [Text.unlines]

theorem rowsOf_unlines {rows : List String} (h : ∀ row ∈ rows, '\n' ∉ row.toList) :
    rowsOf (Text.unlines rows) = rows.map String.toList ++ [[]] := by
  induction rows with
  | nil => rfl
  | cons row rows ih =>
    obtain ⟨hrow, hrows⟩ := List.forall_mem_cons.1 h
    have htext : (Text.unlines (row :: rows)).toList =
        row.toList ++ '\n' :: (Text.unlines rows).toList := by
      simp [Text.unlines]
    rw [rowsOf, htext, List.splitOn_append_cons_self_of_not_mem hrow, ← rowsOf, ih hrows]
    rfl

/-- The row that opens the main function. -/
def mainRow : List Char := r"(function main() {".toList

theorem mainRow_eq : mainRow = ['(', 'f', 'u', 'n', 'c', 't', 'i', 'o', 'n', ' ', 'm', 'a', 'i',
    'n', '(', ')', ' ', '{'] :=
  String.toList_ofList

/-- Whether a row is short and does not open the main function. -/
def isFixedRow (cs : List Char) : Bool :=
  decide (cs.length ≤ 160) && !cs.contains '\n' && trimRow cs != ['(', 'f', 'u', 'n', 'c', 't', 'i',
    'o', 'n', ' ', 'm', 'a', 'i', 'n', '(', ')', ' ', '{']

theorem isFixedRow_iff {cs : List Char} :
    isFixedRow cs = true ↔ cs.length ≤ 160 ∧ '\n' ∉ cs ∧ trimRow cs ≠ mainRow := by
  rw [isFixedRow, ← mainRow_eq, Bool.and_eq_true, Bool.and_eq_true, decide_eq_true_eq, bne_iff_ne,
    Bool.not_eq_true', List.contains_eq_mem, decide_eq_false_iff_not, and_assoc]

theorem forall_fixed_cons {cs : List Char} {rows : List String} (h : isFixedRow cs = true)
    (hrows : ∀ row ∈ rows, isFixedRow row.toList = true) :
    ∀ row ∈ String.ofList cs :: rows, isFixedRow row.toList = true :=
  List.forall_mem_cons.2 ⟨by rwa [String.toList_ofList], hrows⟩

theorem isFixedRow_runtimeRows : ∀ row ∈ runtimeRows, isFixedRow row.toList = true := by
  unfold runtimeRows
  iterate 22 refine forall_fixed_cons (by decide) ?_
  exact List.forall_mem_nil _

set_option maxRecDepth 4000 in
theorem isFixedRow_helperRows : ∀ row ∈ helperRows, isFixedRow row.toList = true := by
  unfold helperRows
  iterate 53 refine forall_fixed_cons (by decide) ?_
  exact List.forall_mem_nil _

/-- The comment that a script starts with. -/
def heading : String := "// MFlow compiled output - Enhanced Version"

/-- The prelude: its heading, the row that looks up the canvas, and more. -/
theorem exists_behind_lookup (id tick : String) :
    ∃ rest, rest ≠ "" ∧ preludeText (escapeQuotes id) tick =
      heading ++ "\n" ++ (lookupRow id ++ "\n" ++ rest) := by
  have hstart : "const canvas = document.getElementById(\"" =
      "const canvas = " ++ "document.getElementById(\"" := by decide
  have hend : "\");" = "\")" ++ ";" := by decide
  have hrow : "const canvas = document.getElementById(\"" ++ escapeQuotes id ++ "\");" =
      lookupRow id := by
    unfold lookupRow lookup
    rw [hstart, hend]
    simp only [String.append_assoc]
  unfold preludeText preludeRows
  rw [hrow]
  exact ⟨_, unlines_cons_ne_empty _ _, rfl⟩

/-- The line of the prelude that looks up the canvas. -/
theorem exists_line_prelude (hid : '\n' ∉ id.toList) (fps : Int) :
    ∃ level, ⟨level, none, lookupRow id⟩ ∈ lines (prelude id fps) := by
  obtain ⟨start, hstart, hrow⟩ := exists_toList_lookupRow id
  have hbreak : '\n' ∉ (lookupRow id).toList := by
    have hlookup := lineFeed_not_mem_lookup hid
    rw [hrow]
    simp [hstart, hlookup]
  have htrim : trimRow (lookupRow id).toList = (lookupRow id).toList := by
    rw [hrow]
    rfl
  obtain ⟨rest, -, htext⟩ := exists_behind_lookup id (tick fps)
  have hmem : (lookupRow id).toList ∈ rowsOf (preludeText (escapeQuotes id) (tick fps)) := by
    rw [htext, ← String.append_assoc, ← String.append_assoc]
    exact mem_rowsOf hbreak heading rest
  obtain ⟨level, hline⟩ := exists_line_of_row hmem (by rw [htrim, hrow]; exact nofun)
  rw [htrim, String.ofList_toList] at hline
  exact ⟨level, hline⟩

theorem exists_line_script {style : Style} (hid : '\n' ∉ style.canvasId.toList) (p : Program) :
    ∃ l ∈ lines (p.script style), l.text = lookupRow style.canvasId := by
  obtain ⟨level, hline⟩ := exists_line_prelude hid style.fps
  have hprelude : Tidy (prelude style.canvasId style.fps) := Tidy.ofText _
  have hcode : Line.isCode ⟨level, none, lookupRow style.canvasId⟩ = true := by
    obtain ⟨start, -, hrow⟩ := exists_toList_lookupRow style.canvasId
    rw [Line.isCode, hrow]
    rfl
  obtain ⟨t, ht⟩ : ∃ t, p.fullScript style.canvasId style.fps =
      prelude style.canvasId style.fps ++ t :=
    ⟨_, by simp only [Program.fullScript, List.append_assoc]; rfl⟩
  rw [Program.script, ht]
  split
  · rw [compact_append, hprelude.lines_compact_append]
    have hkept := List.mem_map_of_mem (f := Line.flush) (List.mem_filter.2 ⟨hline, hcode⟩)
    exact ⟨_, List.mem_append_left _ hkept, rfl⟩
  · rw [hprelude.lines_append]
    exact ⟨_, List.mem_append_left _ hline, rfl⟩

theorem row_infix_print {s : Script} {l : Line} (hl : l ∈ lines s) :
    l.row <:+: (print s).toList := by
  obtain ⟨before, after, hlines⟩ := List.append_of_mem hl
  rw [toList_print, hlines, List.flatMap_append, List.flatMap_cons]
  exact ⟨before.flatMap fun l => l.row ++ ['\n'],
    ['\n'] ++ after.flatMap fun l => l.row ++ ['\n'], by simp only [List.append_assoc]⟩

/-- The script of a program looks up its canvas, with its layout or without. -/
theorem lookup_infix_generate {style : Style} (hid : '\n' ∉ style.canvasId.toList) (p : Program) :
    (lookup style.canvasId).toList <:+: (generate style p).toList := by
  obtain ⟨l, hl, htext⟩ := exists_line_script hid p
  obtain ⟨start, -, hrow⟩ := exists_toList_lookupRow style.canvasId
  refine List.IsInfix.trans ?_ (row_infix_print hl)
  rw [Line.row, htext, hrow]
  exact ⟨List.replicate (2 * l.indent) ' ' ++ 'c' :: start, [';'], by simp⟩

end Easel.Script

namespace Easel.Program

open Script

theorem script_build (o : Options) (p : Program) :
    (p.build o).script = (p.script o.toStyle).print := by
  unfold Program.build
  simp only
  split <;> rfl

theorem lookup_infix_build {o : Options} (hid : '\n' ∉ o.canvasId.toList) (p : Program) :
    (lookup o.canvasId).toList <:+: (p.build o).script.toList := by
  rw [script_build]
  exact lookup_infix_generate hid p

end Easel.Program
