import Easel.Proofs.Script.Canvas
import Easel.Proofs.Script.Tidy
import Mathlib.Algebra.GroupWithZero.Nat

/-!
# Sizes of scripts

The text of a script is no longer than its items (`size_print_le`): each adds its text, at most one
line end and, where it starts a line, its indentation.  The prelude is short (`length_preludeText`),
and so a script with a short canvas id is little longer than its main function (`size_build_le`). It
is at least as long as the line that looks up the canvas (`size_lookup_le_build`).
-/

namespace Easel

namespace Script

/-! ## Items -/

/-- The most characters an item adds to the text. -/
def Item.weight (i : Item) : Nat := 2 * i.indent + i.content.text.toList.length + 1

/-- The most characters a script takes. -/
def weight (s : Script) : Nat := (s.map Item.weight).sum

theorem weight_cons (i : Item) (s : Script) : weight (i :: s) = i.weight + weight s := List.sum_cons

theorem weight_append (s t : Script) : weight (s ++ t) = weight s + weight t := by
  simp [weight]

theorem weight_compact_le (s : Script) : weight (compact s) ≤ weight s := by
  induction s with
  | nil => exact Nat.le_refl _
  | cons i s ih =>
    have hflush : Item.weight { i with indent := 0 } ≤ i.weight := by
      simp only [Item.weight]
      omega
    rw [weight_cons]
    cases hlayout : i.isLayout with
    | true =>
      have hcompact : compact (i :: s) = compact s := by simp [compact, hlayout]
      rw [hcompact]
      omega
    | false =>
      have hcompact : compact (i :: s) = { i with indent := 0 } :: compact s := by
        simp [compact, hlayout]
      rw [hcompact, weight_cons]
      omega

/-- What an item writes on a line, with a line end behind it, is no longer than the item says. -/
theorem Item.length_writeOn_lt (i : Item) (current : Option Line) :
    ((i.writeOn current).elim 0 fun l => l.row.length) + 1 ≤
      (current.elim 0 fun l => l.row.length) + i.weight := by
  unfold Item.writeOn
  split
  · simp only [Item.weight]
    omega
  · cases current <;> simp [Item.weight, Line.row]
    omega

/-- The rows of a script behind an unfinished line. -/
theorem length_rows_le (current : Option Line) (s : Script) :
    ((linesFrom current s).flatMap fun l => l.row ++ ['\n']).length ≤
      (current.elim 0 fun l => l.row.length) + weight s := by
  induction s generalizing current with
  | nil => simp [linesFrom]
  | cons i s ih =>
    have hitem := i.length_writeOn_lt current
    rw [linesFrom, weight_cons]
    split
    · have hrest := ih none
      have hline : ((i.writeOn current).getD {}).row.length =
          (i.writeOn current).elim 0 fun l => l.row.length := by
        cases i.writeOn current <;> rfl
      rw [List.flatMap_cons, List.length_append, List.length_append, hline]
      simp only [List.length_singleton, Option.elim_none] at hrest ⊢
      omega
    · have hrest := ih (i.writeOn current)
      omega

theorem utf8ByteSize_ofList_le (cs : List Char) :
    (String.ofList cs).utf8ByteSize ≤ 4 * cs.length := by
  induction cs with
  | nil => simp
  | cons c cs ih =>
    have hc := c.utf8Size_le_four
    rw [String.ofList_cons, String.utf8ByteSize_append, String.utf8ByteSize_singleton,
      List.length_cons]
    omega

/-- The text of a script takes at most four bytes for each character. -/
theorem size_print_le (s : Script) : (print s).utf8ByteSize ≤ 4 * weight s := by
  have hrows : (print s).toList.length ≤ 0 + weight s := by
    rw [toList_print]
    exact length_rows_le none s
  have hbytes := utf8ByteSize_ofList_le (print s).toList
  rw [String.ofList_toList] at hbytes
  omega

/-! ## Fixed texts -/

theorem weight_ofTextLine (row : List Char) : weight (ofTextLine row) ≤ row.length + 2 := by
  have hlength := congrArg List.length
    (List.takeWhile_append_dropWhile (p := (· == ' ')) (l := row))
  rw [List.length_append] at hlength
  have hblanks : leadingBlanks row = (row.takeWhile (· == ' ')).length := rfl
  unfold ofTextLine
  split
  · simp [blankLine, weight, Item.weight, Content.text]
  · simp only
    split <;> simp [weight, Item.weight, Content.text] <;> omega

theorem weight_ofTextLines (cs : List Char) :
    weight ((cs.splitOn '\n').flatMap ofTextLine) ≤ 2 * cs.length + 2 := by
  have hrows (rows : List (List Char)) :
      weight (rows.flatMap ofTextLine) ≤ (rows.map fun row => row.length + 2).sum := by
    induction rows with
    | nil => exact Nat.le_refl _
    | cons row rows ih =>
      have hrow := weight_ofTextLine row
      rw [List.flatMap_cons, weight_append, List.map_cons, List.sum_cons]
      omega
  refine Nat.le_trans (hrows _) ?_
  induction cs with
  | nil => simp
  | cons c cs ih =>
    rw [List.splitOn_cons_eq_if_modifyHead]
    split
    · rw [List.map_cons, List.sum_cons, List.length_cons]
      simp only [List.length_nil]
      omega
    · obtain ⟨first, more, hsplit⟩ := List.exists_cons_of_ne_nil (List.splitOn_ne_nil '\n' cs)
      rw [hsplit, List.map_cons, List.sum_cons] at ih
      rw [hsplit, List.modifyHead_cons, List.map_cons, List.sum_cons, List.length_cons,
        List.length_cons]
      omega

theorem weight_ofText (text : String) : weight (ofText text) ≤ 2 * text.toList.length + 2 := by
  unfold ofText
  simp only
  split
  · have hshort := weight_ofTextLines text.toList.dropLast
    rw [List.length_dropLast] at hshort
    omega
  · exact weight_ofTextLines text.toList

theorem length_unlines_le {rows : List String} {n : Nat} (h : ∀ row ∈ rows, row.toList.length ≤ n) :
    (Text.unlines rows).toList.length ≤ rows.length * (n + 1) := by
  induction rows with
  | nil => simp [Text.unlines]
  | cons row rows ih =>
    obtain ⟨hrow, hrows⟩ := List.forall_mem_cons.1 h
    have hrest := ih hrows
    have htext : (Text.unlines (row :: rows)).toList.length =
        row.toList.length + 1 + (Text.unlines rows).toList.length := by
      simp [Text.unlines]
      omega
    rw [htext, List.length_cons, Nat.add_mul]
    omega

theorem length_insert_le {cs ds : List Char} {text : String} (hcs : cs.length ≤ 160)
    (htext : text.toList.length ≤ 160) (hds : ds.length ≤ 160) :
    (String.ofList cs ++ text ++ String.ofList ds).toList.length ≤ 480 := by
  rw [String.toList_append, String.toList_append, List.length_append, List.length_append,
    String.toList_ofList, String.toList_ofList]
  omega

theorem length_preludeText {canvas tick : String} (hcanvas : canvas.toList.length ≤ 160)
    (htick : tick.toList.length ≤ 160) : (preludeText canvas tick).toList.length ≤ 20000 := by
  have hfixed {rows : List String} (h : ∀ row ∈ rows, isFixedRow row.toList = true) :=
    length_unlines_le fun row hrow => (isFixedRow_iff.1 (h row hrow)).1
  have hruntime := hfixed isFixedRow_runtimeRows
  have hhelpers := hfixed isFixedRow_helperRows
  unfold preludeText preludeRows
  rw [unlines_append, unlines_append, unlines_append, String.toList_append, String.toList_append,
    String.toList_append, List.length_append, List.length_append, List.length_append]
  refine Nat.le_trans (Nat.add_le_add (Nat.add_le_add (Nat.add_le_add (length_unlines_le (n := 480) ?_)
    hruntime) (length_unlines_le (n := 480) ?_)) hhelpers) ?_
  · refine List.forall_mem_cons.2 ⟨?_, List.forall_mem_cons.2
      ⟨length_insert_le (by decide) hcanvas (by decide),
        List.forall_mem_singleton.2 (length_insert_le (by decide) hcanvas (by decide))⟩⟩
    exact Nat.le_trans (Nat.le_of_eq (congrArg List.length String.toList_ofList)) (by decide)
  · exact List.forall_mem_singleton.2 (length_insert_le (by decide) htick (by decide))
  · exact (by decide : 3 * 481 + 22 * 161 + 1 * 481 + 53 * 161 ≤ 20000)

end Script

open Script

/-! ## Builds -/

/-- A script without a line map takes little more than its main function. -/
theorem Program.size_build_le (p : Program) {o : Options} (hmap : o.lineMap = false)
    (hcanvas : (escapeQuotes o.canvasId).toList.length ≤ 160)
    (htick : (tick o.fps).toList.length ≤ 160) :
    (p.build o).data.size ≤ 4 * (40002 + weight (blankLine ++ p.mainScript)) := by
  have hscript : weight (p.script o.toStyle) ≤ weight (p.fullScript o.canvasId o.fps) := by
    unfold Program.script
    split
    · exact weight_compact_le _
    · exact Nat.le_refl _
  have hprelude : weight (prelude o.canvasId o.fps) ≤ 40002 :=
    Nat.le_trans (weight_ofText _) (by have := length_preludeText hcanvas htick; omega)
  have hsize : (p.build o).data.size = (Script.print (p.script o.toStyle)).utf8ByteSize := by
    rw [Program.build, if_neg (by simp [hmap]), Build.data, ByteArray.size_append]
    exact Nat.add_zero _
  have hprint := size_print_le (p.script o.toStyle)
  rw [p.fullScript_eq, weight_append] at hscript
  omega

/-- A script takes at least the bytes of the code that looks up its canvas. -/
theorem Program.size_lookup_le_build (p : Program) {o : Options}
    (hid : '\n' ∉ o.canvasId.toList) : (lookup o.canvasId).utf8ByteSize ≤ (p.build o).data.size := by
  obtain ⟨before, after, hscript⟩ := p.lookup_infix_build hid
  have hsize : (p.build o).script.utf8ByteSize =
      (String.ofList before ++ lookup o.canvasId ++ String.ofList after).utf8ByteSize := by
    rw [← String.ofList_toList (s := (p.build o).script), ← hscript, String.ofList_append,
      String.ofList_append, String.ofList_toList]
  rw [String.utf8ByteSize_append, String.utf8ByteSize_append] at hsize
  have hdata : (p.build o).data.size = (p.build o).script.utf8ByteSize + _ := ByteArray.size_append
  omega

end Easel
