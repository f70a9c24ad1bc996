import Easel.Proofs.Layout.Glue

/-!
# Formatting twice

A formatted text is its own format: `format_idempotent`.  The lexemes of a formatted text are the
lines of the source in canonical layout, after `glue` (`readable_layOut`), and laying them out once
more gives them back (`layOut_lexemeLines_layOut`).
-/

namespace Easel.Layout

open Token (Kind Lexeme textOf Found Readable Stops stops_cons)

/-- The lexemes that are read from a formatted line. -/
def tidy (line : List Lexeme) : List Lexeme := glue (lineOf line)

theorem tidy_eq_nil_iff {line : List Lexeme} : tidy line = [] ↔ lineOf line = [] := glue_eq_nil_iff

theorem textOf_layOut_tidy (depth : Nat) (started gap : Bool) (lines : List (List Lexeme)) :
    textOf (layOut tidy depth started gap lines) = textOf (layOut lineOf depth started gap lines) := by
  induction lines generalizing depth started gap with
  | nil => rfl
  | cons line lines ih =>
    rw [layOut, layOut]
    cases hset : lineOf line with
    | nil =>
      rw [tidy_eq_nil_iff.2 hset]
      exact ih _ _ _
    | cons l ls =>
      cases htidy : tidy line with
      | nil =>
        rw [tidy_eq_nil_iff.1 htidy] at hset
        cases hset
      | cons l' ls' =>
        have htext : textOf (l' :: ls') = textOf (l :: ls) := by
          rw [← htidy, ← hset, tidy, textOf_glue]
        simp only [Token.textOf_append, ih, htext, Token.textOf_cons lineEnd]

/-! ## The lexemes of the formatted text -/

theorem readable_lines {after : List Char} {ls : List Lexeme} (h : Readable after ls) :
    ∀ line ∈ lexemeLines ls, ∃ after', Readable after' line := by
  unfold lexemeLines
  induction ls using lines_induction (p := isLineEnd) with
  | last A hA =>
    rw [List.splitOnP_eq_singleton hA]
    simpa using ⟨after, h⟩
  | more A l B hA hl ih =>
    rw [List.splitOnP_append_cons_of_forall_mem hA _ hl]
    obtain ⟨hA', hB⟩ := Token.readable_append.1 h
    exact List.forall_mem_cons.2 ⟨⟨_, hA'⟩, ih (Token.readable_cons.1 hB).2⟩

theorem readable_indent {depth : Nat} {l : Lexeme} {rest more : List Char} (h : Found l rest)
    (hk : l.kind ≠ none) : Readable (l.text ++ more) (indent depth) := by
  obtain ⟨kind, text⟩ := l
  obtain ⟨c, cs, rfl⟩ := List.exists_cons_of_ne_nil h.text_ne_nil
  unfold indent
  split_ifs with hdepth
  · exact .nil
  refine .cons ?_ .nil
  rw [show 2 * depth = 2 * depth - 1 + 1 by omega, List.replicate_succ]
  refine .blank (by decide) (fun d hd => ?_) (stops_cons.2 (h.isLineBlank_first hk))
  rw [List.eq_of_mem_replicate hd]
  decide

/-- What is laid out is what is read from its text. -/
theorem readable_layOut {lines : List (List Lexeme)}
    (hread : ∀ line ∈ lines, ∃ after, Readable after line)
    (hline : ∀ line ∈ lines, ∀ l ∈ line, isLineEnd l = false) (depth : Nat) (started gap : Bool) :
    Readable [] (layOut tidy depth started gap lines) := by
  induction lines generalizing depth started gap with
  | nil => exact .nil
  | cons line lines ih =>
    obtain ⟨⟨after, hafter⟩, hread⟩ := List.forall_mem_cons.1 hread
    obtain ⟨hends, hline⟩ := List.forall_mem_cons.1 hline
    rw [layOut]
    cases htidy : tidy line with
    | nil => exact ih hread hline _ _ _
    | cons l ls =>
      have hrest := ih hread hline ((kindsOf line).foldl depthBy depth) true false
      have hset := readable_glue (loose_lineOf (textOf (layOut tidy
        ((kindsOf line).foldl depthBy depth) true false lines)) hafter hends)
      rw [← tidy, htidy] at hset
      have hkind : l.kind ≠ none := by
        rcases canonicalLine_glue (canonicalLine_lineOf line) with hnil | ⟨kind, text, rest, heq, -⟩
        · rw [← tidy, htidy] at hnil
          cases hnil
        · rw [← tidy, htidy] at heq
          simp [(List.cons.inj heq).1]
      have hfirst := (Token.readable_cons.1 hset).1
      refine Token.readable_append.2 ⟨Token.readable_append.2 ⟨Token.readable_append.2 ⟨?_, ?_⟩, ?_⟩,
        .cons (.newline _) hrest⟩
      · split_ifs
        · exact .cons (.newline _) .nil
        · exact .nil
      · rw [Token.textOf_cons l, List.append_assoc]
        exact readable_indent hfirst hkind
      · rw [List.append_nil]
        exact hset

/-- The lexemes of the formatted text are the lines of the source, set. -/
theorem lexemes_of_format {source out : String} (h : format source = .ok out) :
    Token.lexemes out.toList =
      layOut tidy 0 false false (lexemeLines (Token.lexemes source.toList)) := by
  obtain ⟨hknown, hout⟩ := format_eq_ok_iff.1 h
  have hread := readable_layOut (readable_lines (Token.readable_lexemes hknown))
    (fun _ hline _ hl => (mem_of_mem_lexemeLines hline hl).2) 0 false false
  rw [hout, formatted, ← textOf_layOut_tidy, Token.lexemes_textOf hread]

/-! ## Laying out again -/

theorem isLineEnd_glue {ls : List Lexeme} (h : ∀ l ∈ ls, isLineEnd l = false) :
    ∀ l ∈ glue ls, isLineEnd l = false := by
  fun_induction glue ls with
  | case1 a point b rest ha ih =>
    obtain ⟨-, hrest⟩ := List.forall_mem_cons.1 h
    exact List.forall_mem_cons.2 ⟨rfl, ih hrest⟩
  | case2 a point b rest ha hb ih =>
    exact List.forall_mem_cons.2 ⟨rfl, ih fun l hl => h l (by simp [hl])⟩
  | case3 a point b rest ha c fraction hb ih =>
    refine List.forall_mem_cons.2 ⟨rfl, List.forall_mem_cons.2 ⟨rfl, ih ?_⟩⟩
    exact List.forall_mem_cons.2 ⟨rfl, fun l hl => h l (by simp [hl])⟩
  | case4 l rest _ ih =>
    obtain ⟨hl, hrest⟩ := List.forall_mem_cons.1 h
    exact List.forall_mem_cons.2 ⟨hl, ih hrest⟩
  | case5 => exact h

section Setting

variable {β : Type} {f : Lexeme → Option β}

theorem filterMap_tailOf (h : ∀ text, f ⟨none, text⟩ = none) (before : Kind) (spaced : Bool)
    (ls : List Lexeme) : (tailOf before spaced ls).filterMap f = ls.filterMap f := by
  induction ls generalizing before spaced with
  | nil => rfl
  | cons l ls ih =>
    obtain ⟨_ | kind, text⟩ := l
    · rw [tailOf_none, ih, List.filterMap_cons_none (h text)]
    · have hblank : (if apartBy before kind spaced then [space] else []).filterMap f = [] := by
        split_ifs
        · exact List.filterMap_cons_none (h _)
        · rfl
      rw [tailOf_some, List.filterMap_append, hblank, List.nil_append, List.filterMap_cons, ih,
        List.filterMap_cons]

/-- Setting a line changes its blanks only. -/
theorem filterMap_lineOf (h : ∀ text, f ⟨none, text⟩ = none) (ls : List Lexeme) :
    (lineOf ls).filterMap f = ls.filterMap f := by
  induction ls with
  | nil => rfl
  | cons l ls ih =>
    obtain ⟨_ | kind, text⟩ := l
    · rw [List.filterMap_cons_none (h text)]
      exact ih
    · rw [lineOf, List.filterMap_cons, filterMap_tailOf h, List.filterMap_cons]

theorem filter_lineOf {p : Lexeme → Bool} (h : ∀ text, p ⟨none, text⟩ = false) (ls : List Lexeme) :
    (lineOf ls).filter p = ls.filter p := by
  have hguard (text : List Char) : Option.guard p ⟨none, text⟩ = none := by simp [h text]
  simpa only [List.filterMap_eq_filter] using filterMap_lineOf hguard ls

end Setting

theorem isLineEnd_lineOf {ls : List Lexeme} (h : ∀ l ∈ ls, isLineEnd l = false) :
    ∀ l ∈ lineOf ls, isLineEnd l = false := by
  have hnone : (lineOf ls).filter isLineEnd = [] := by
    rw [filter_lineOf fun _ => rfl]
    exact List.filter_eq_nil_iff.2 fun l hl => by simp [h l hl]
  exact fun l hl => by simpa using List.filter_eq_nil_iff.1 hnone l hl

theorem kindsOf_lineOf (ls : List Lexeme) : kindsOf (lineOf ls) = kindsOf ls :=
  filterMap_lineOf (fun _ => rfl) ls

theorem kindsOf_indent (depth : Nat) (ls : List Lexeme) : kindsOf (indent depth ++ ls) = kindsOf ls := by
  unfold indent
  split_ifs <;> rfl

theorem lineOf_indent (depth : Nat) (ls : List Lexeme) : lineOf (indent depth ++ ls) = lineOf ls := by
  unfold indent
  split_ifs <;> rfl

/-- A line that is set is not changed by setting it again. -/
theorem lineOf_tidy (line : List Lexeme) : lineOf (tidy line) = tidy line :=
  lineOf_of_canonicalLine (canonicalLine_glue (canonicalLine_lineOf line))

theorem depthAt_tidy (depth : Nat) (line : List Lexeme) : depthAt depth (tidy line) = depthAt depth line := by
  rw [tidy, depthAt_glue, depthAt, depthAt, kindsOf_lineOf]

theorem foldl_depthBy_tidy (depth : Nat) (line : List Lexeme) :
    (kindsOf (tidy line)).foldl depthBy depth = (kindsOf line).foldl depthBy depth := by
  rw [tidy, foldl_depthBy_glue, kindsOf_lineOf]

/-- An indented line that is set is laid out as the line was. -/
theorem layOut_indent_tidy {line : List Lexeme} {l : Lexeme} {ls : List Lexeme}
    (htidy : tidy line = l :: ls) (depth : Nat) (started gap : Bool) (more : List (List Lexeme)) :
    layOut lineOf depth started gap ((indent (depthAt depth line) ++ (l :: ls)) :: more) =
      (if gap then [lineEnd] else []) ++ indent (depthAt depth line) ++ (l :: ls) ++
        lineEnd :: layOut lineOf ((kindsOf line).foldl depthBy depth) true false more := by
  have hset : lineOf (indent (depthAt depth line) ++ (l :: ls)) = l :: ls := by
    rw [lineOf_indent, ← htidy, lineOf_tidy]
  have hkinds : kindsOf (indent (depthAt depth line) ++ (l :: ls)) = kindsOf (tidy line) := by
    rw [kindsOf_indent, htidy]
  have hdepth : depthAt depth (indent (depthAt depth line) ++ (l :: ls)) = depthAt depth line := by
    rw [depthAt, hkinds]
    exact depthAt_tidy depth line
  rw [layOut, hset]
  dsimp only
  rw [hdepth, hkinds, foldl_depthBy_tidy]

/-- Lines that are laid out are not changed by laying them out again.  A line end before a line
comes back as a gap, since it stands after some line. -/
theorem layOut_lexemeLines_layOut {lines : List (List Lexeme)}
    (hline : ∀ line ∈ lines, ∀ l ∈ line, isLineEnd l = false) (depth : Nat) {started gap : Bool}
    (hgap : gap = true → started = true) :
    layOut lineOf depth started false (lexemeLines (layOut tidy depth started gap lines)) =
      layOut tidy depth started gap lines := by
  induction lines generalizing depth started gap with
  | nil => rfl
  | cons line lines ih =>
    obtain ⟨hends, hline⟩ := List.forall_mem_cons.1 hline
    rw [layOut]
    cases htidy : tidy line with
    | nil => exact ih hline depth id
    | cons l ls =>
      have hrest : layOut lineOf ((kindsOf line).foldl depthBy depth) true false (lexemeLines
          (layOut tidy ((kindsOf line).foldl depthBy depth) true false lines)) =
          layOut tidy ((kindsOf line).foldl depthBy depth) true false lines := ih hline _ (by simp)
      have hnone : ∀ x ∈ indent (depthAt depth line) ++ (l :: ls), isLineEnd x = false := by
        intro x hx
        rcases List.mem_append.1 hx with hx | hx
        · unfold indent at hx
          split_ifs at hx
          · cases hx
          · rw [List.mem_singleton.1 hx]
            rfl
        · exact isLineEnd_glue (isLineEnd_lineOf hends) x (by rwa [← tidy, htidy])
      have hsplit : lexemeLines (indent (depthAt depth line) ++ (l :: ls) ++
          lineEnd :: layOut tidy ((kindsOf line).foldl depthBy depth) true false lines) =
          (indent (depthAt depth line) ++ (l :: ls)) ::
            lexemeLines (layOut tidy ((kindsOf line).foldl depthBy depth) true false lines) :=
        List.splitOnP_append_cons_of_forall_mem hnone _ rfl _
      cases gap with
      | false =>
        simp only [Bool.false_eq_true, if_false, List.nil_append]
        rw [hsplit, layOut_indent_tidy htidy, hrest]
        rfl
      | true =>
        obtain rfl := hgap rfl
        have hempty (ls : List Lexeme) : lexemeLines ([] ++ lineEnd :: ls) = [] :: lexemeLines ls :=
          List.splitOnP_append_cons_of_forall_mem (List.forall_mem_nil _) lineEnd rfl ls
        refine (congrArg (layOut lineOf depth true false)
          ((hempty _).trans (congrArg ([] :: ·) hsplit))).trans ?_
        show layOut lineOf depth true true (_ :: _) = _
        rw [layOut_indent_tidy htidy, hrest]

/-! ## Formatting twice -/

/-- A formatted text is not changed by formatting it. -/
theorem format_idempotent {source out : String} (h : format source = .ok out) :
    format out = .ok out := by
  obtain ⟨hknown, hout⟩ := format_eq_ok_iff.1 h
  have hline : ∀ line ∈ lexemeLines (Token.lexemes source.toList), ∀ l ∈ line, isLineEnd l = false :=
    fun _ hline _ hl => (mem_of_mem_lexemeLines hline hl).2
  have hagain := readable_layOut (readable_lines (Token.readable_lexemes hknown)) hline 0 false false
  refine format_eq_ok_iff.2 ⟨fun l hl => ?_, ?_⟩
  · rw [lexemes_of_format h] at hl
    obtain ⟨rest, hfound⟩ := hagain.exists_found hl
    exact hfound.kind_ne.1
  · rw [lexemes_of_format h, formatted, layOut_lexemeLines_layOut hline 0 (by simp),
      textOf_layOut_tidy, hout, formatted]

/-- Numbers around a point, a bracket that closes nothing, empty lines and a comment. -/
theorem format_idempotent_number :
    format "a . 1 . 5.2 )\n\n\n  f( x ,\ty)// end " = .ok "a.1.5.2)\n\nf(x, y) // end \n" ∧
    format "a.1.5.2)\n\nf(x, y) // end \n" = .ok "a.1.5.2)\n\nf(x, y) // end \n" := by
  have h : format "a . 1 . 5.2 )\n\n\n  f( x ,\ty)// end " = .ok "a.1.5.2)\n\nf(x, y) // end \n" := by
    decide +kernel
  exact ⟨h, format_idempotent h⟩

end Easel.Layout
