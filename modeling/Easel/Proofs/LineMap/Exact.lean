import Easel.Proofs.LineMap.Origins
import Easel.Proofs.Script.Tidy
import Easel.Proofs.Script.Canvas
import Easel.Proofs.Script.Trace

/-!
# Line maps are exact

The map of a compiled program holds the lines of its main function, from the first to the last, and
no others.  Each comes from the innermost statement or animation command that is being written when
the first text of the line is (`lineMap_exact`); the clauses in the head of a loop count as part of
the loop.
-/

namespace Easel

open Script

/-! ## Places in a source -/

/-- No line and no column of the place is beyond a bound. -/
def Position.Within (bound : Nat) (p : Position) : Prop := p.line ≤ bound ∧ p.column ≤ bound

theorem Cursor.advance_le (k : Cursor) (cs : List Char) :
    (k.advance cs).position.line ≤ k.position.line + cs.length ∧
      (k.advance cs).position.column ≤ k.position.column + cs.length := by
  induction cs generalizing k with
  | nil => exact ⟨Nat.le_refl _, Nat.le_refl _⟩
  | cons c cs ih =>
    have hstep : (k.step c).position.line ≤ k.position.line + 1 ∧
        (k.step c).position.column ≤ k.position.column + 1 := by
      unfold step
      split
      · exact ⟨Nat.le_refl _, Nat.le_add_left _ _⟩
      · exact ⟨Nat.le_add_right _ _, Nat.le_refl _⟩
    have hrest := ih (k.step c)
    rw [List.length_cons]
    have hadvance : k.advance (c :: cs) = (k.step c).advance cs := rfl
    rw [hadvance]
    omega

theorem Token.within_place {bound : Nat} (k : Cursor) (ls : List Lexeme)
    (hline : k.position.line + (textOf ls).length ≤ bound)
    (hcolumn : k.position.column + (textOf ls).length ≤ bound) :
    ∀ t ∈ place k ls, t.position.Within bound := by
  induction ls generalizing k with
  | nil =>
    refine List.forall_mem_singleton.2 ⟨?_, ?_⟩
    · exact Nat.le_trans (Nat.le_add_right _ _) hline
    · exact Nat.le_trans (Nat.le_add_right _ _) hcolumn
  | cons l ls ih =>
    have hadvance := k.advance_le l.text
    have htext : (textOf (l :: ls)).length = l.text.length + (textOf ls).length := by
      simp [textOf]
    have hrest := ih (k.advance l.text) (by omega) (by omega)
    rw [place]
    split
    · refine List.forall_mem_cons.2 ⟨⟨?_, ?_⟩, hrest⟩
      · show k.position.line ≤ bound
        omega
      · show k.position.column ≤ bound
        omega
    · exact hrest

theorem Token.within_lex (source : String) :
    ∀ t ∈ lex source, t.position.Within (source.length + 1) := by
  intro t ht
  have hlength : (textOf (lexemes source.toList)).length = source.length := by
    rw [textOf_lexemes, String.length_toList]
  refine within_place .start _ ?_ ?_ t (mem_lexWithComments_of_mem_lex ht)
  · show 1 + _ ≤ _
    omega
  · show 1 + _ ≤ _
    omega

/-- An expression stands at a token. -/
theorem Expr.hereditary_position (P : Position → Prop) :
    Expr.Hereditary (fun t => P t.position) (fun e => P e.position) where
  leaf ht _ he := by
    unfold Parser.leaf? at he
    split at he <;> cases he <;> exact ht
  number ht _ := ht
  array ht _ _ := ht
  object ht _ _ := ht
  negate ht _ _ := ht
  binary ht _ _ _ _ _ := ht
  assign _ ht _ := ht
  call hc _ := hc
  member hb _ := hb
  index hb _ := hb
  shape ht _ _ _ := ht

theorem Position.From.of {P : Position → Prop} {p : Position} (h : p.From fun t => P t.position) :
    P p := by
  obtain ⟨t, ht, rfl⟩ := h
  exact ht

theorem Stmt.From.position {P : Position → Prop} {s : Stmt}
    (h : s.From (fun t => P t.position) fun e => P e.position) : P s.position := by
  cases h with
  | binding h => exact h.position.of
  | expr h => exact h
  | function hp | ret hp | ifThen hp | ifElse hp | repeatLoop hp | whileLoop hp | forLoop hp
  | importFrom hp | scene hp | animate hp => exact hp.of

/-! ## What writes an item -/

/-- The innermost of the constructs stands at a place with a property. -/
def Construct.Stands (P : Position → Prop) (cs : List Construct) : Prop :=
  ∃ p, Construct.place? cs = some p ∧ P p

namespace Trace

variable {P : Position → Prop} {cs : List Construct}

/-- Every item is written by constructs of which the innermost stands at a place with a property. -/
def Placed (P : Position → Prop) (t : Trace) : Prop := ∀ x ∈ t, Construct.Stands P x.2

theorem Placed.append {t t' : Trace} (h : Placed P t) (h' : Placed P t') : Placed P (t ++ t') :=
  List.forall_mem_append.2 ⟨h, h'⟩

theorem Placed.indented {t : Trace} (h : Placed P t) : Placed P t.indented :=
  List.forall_mem_map.2 h

theorem Placed.compact {t : Trace} (h : Placed P t) : Placed P t.compact :=
  List.forall_mem_map.2 fun x hx => h x (List.mem_of_mem_filter hx)

section Own

variable (hcs : Construct.Stands P cs)
include hcs

theorem placed_of (s : Script) : Placed P (of cs s) := List.forall_mem_map.2 fun _ _ => hcs

theorem Placed.inScope {t : Trace} (h : Placed P t) : Placed P (inScope cs t) :=
  ((placed_of hcs _).append h).append (placed_of hcs _)

theorem Placed.braced {t : Trace} (h : Placed P t) (close : String) :
    Placed P (braced cs close t) :=
  (h.indented.inScope hcs).append (placed_of hcs _)

theorem Placed.block {t : Trace} (h : Placed P t) : Placed P (block cs t) :=
  (placed_of hcs _).append (h.braced hcs _)

theorem placed_ofInit (init : Option Init) : Placed P (ofInit cs init) := by
  cases init with
  | none => exact List.forall_mem_nil _
  | some i =>
    have hclause : Construct.Stands P (.clause i :: cs) := hcs
    exact placed_of hclause _

theorem placed_ofAnimate (name : String) {commands : List Command}
    (h : ∀ c ∈ commands, P c.position) : Placed P (ofAnimate cs name commands) := by
  have hcommands : Placed P (ofCommands cs commands) :=
    List.forall_mem_flatMap.2 fun c hc => placed_of ⟨c.position, rfl, h c hc⟩ _
  exact ((placed_of hcs _).append ((((placed_of hcs _).append hcommands).append
    (placed_of hcs _)).braced hcs _)).append (placed_of hcs _)

end Own

end Trace

namespace Stmt

variable {P : Position → Prop}

theorem placed_traces_of {ss : List Stmt} (hss : ∀ s ∈ ss, P s.position)
    (h : ∀ s ∈ ss, ∀ cs names, Construct.Stands P cs → (s.trace cs names).Placed P)
    (cs : List Construct) (names : Names) : (Stmt.traces cs names ss).Placed P := by
  induction ss generalizing names with
  | nil => exact List.forall_mem_nil _
  | cons s ss ih =>
    obtain ⟨hs, hss⟩ := List.forall_mem_cons.1 hss
    obtain ⟨htrace, htraces⟩ := List.forall_mem_cons.1 h
    rw [Stmt.traces]
    exact (htrace _ names ⟨s.position, rfl, hs⟩).append (ih hss htraces _)

theorem placed_trace {s : Stmt} (h : s.From (fun t => P t.position) fun e => P e.position)
    (cs : List Construct) (names : Names) (hcs : Construct.Stands P cs) :
    (s.trace cs names).Placed P := by
  induction h generalizing cs names with
  | binding | expr | importFrom => exact Trace.placed_of hcs _
  | @ret _ value => cases value <;> exact Trace.placed_of hcs _
  | function _ _ _ hbody ih =>
    have htraces := placed_traces_of (fun s hs => (hbody s hs).position) ih cs names
    exact (Trace.placed_of hcs _).append (((Trace.placed_of hcs _).append
      (htraces.block hcs)).inScope hcs)
  | ifThen _ _ hbody ih | whileLoop _ _ hbody ih =>
    have htraces := placed_traces_of (fun s hs => (hbody s hs).position) ih cs names
    exact (Trace.placed_of hcs _).append (htraces.block hcs)
  | ifElse _ _ hbody halternative ih ih' =>
    have htraces := placed_traces_of (fun s hs => (hbody s hs).position) ih cs names
    have htraces' := placed_traces_of (fun s hs => (halternative s hs).position) ih' cs
    exact ((Trace.placed_of hcs _).append (htraces.braced hcs _)).append ((htraces' _).braced hcs _)
  | repeatLoop _ _ hbody ih =>
    have htraces := placed_traces_of (fun s hs => (hbody s hs).position) ih cs names
    exact ((Trace.placed_of hcs _).append (htraces.block hcs)).inScope hcs
  | forLoop _ _ _ _ hbody ih =>
    have htraces := placed_traces_of (fun s hs => (hbody s hs).position) ih cs names
    exact ((((Trace.placed_of hcs _).append (Trace.placed_ofInit hcs _)).append
      (Trace.placed_of hcs _)).append (htraces.block hcs)).inScope hcs
  | scene _ _ hbody ih =>
    have htraces := placed_traces_of (fun s hs => (hbody s hs).position) ih cs
    exact ((Trace.placed_of hcs _).append ((htraces _).block hcs)).append (Trace.placed_of hcs _)
  | animate _ hcommands =>
    exact Trace.placed_ofAnimate hcs _ fun c hc => (hcommands c hc).position.of

theorem placed_traces {ss : List Stmt}
    (h : ∀ s ∈ ss, s.From (fun t => P t.position) fun e => P e.position) (cs : List Construct)
    (names : Names) : (Stmt.traces cs names ss).Placed P :=
  placed_traces_of (fun s hs => (h s hs).position)
    (fun s hs cs names hcs => placed_trace (h s hs) cs names hcs) cs names

end Stmt

/-- A line that is not blank comes from where its first item does. -/
theorem Script.exists_origin_of_mem_linesFrom {P : Position → Prop} {s : Script}
    {current : Option Line} (hs : ∀ i ∈ s, ∃ p, i.origin = some p ∧ P p)
    (hcurrent : ∀ l ∈ current, ∃ p, l.origin = some p ∧ P p) :
    ∀ l ∈ linesFrom current s, l.text ≠ "" → ∃ p, l.origin = some p ∧ P p := by
  induction s generalizing current with
  | nil => exact List.forall_mem_nil _
  | cons i s ih =>
    obtain ⟨hi, hs⟩ := List.forall_mem_cons.1 hs
    have hwritten : ∀ l ∈ i.writeOn current, ∃ p, l.origin = some p ∧ P p := by
      unfold Item.writeOn
      split
      · exact hcurrent
      · cases current with
        | none => exact fun l hl => Option.mem_some_iff.1 hl ▸ hi
        | some l' =>
          obtain ⟨p, hp⟩ := hcurrent l' rfl
          exact fun l hl => Option.mem_some_iff.1 hl ▸ ⟨p, hp⟩
    rw [linesFrom]
    split
    · refine List.forall_mem_cons.2 ⟨fun htext => ?_, ih hs (by rintro _ ⟨⟩)⟩
      cases hline : i.writeOn current with
      | none =>
        rw [hline] at htext
        exact absurd rfl htext
      | some l => exact hwritten l hline
    · exact ih hs hwritten

/-! ## The prelude -/

/-- The row that closes the main function. -/
def endRow : List Char := r"})();".toList

/-- Whether a row that starts with characters is another than the one that opens the main
function. -/
def startsOther (cs : List Char) : Bool := areInline cs && (trimRow cs).head?.any (· != '(')

theorem trimRow_ne_of_startsOther {cs : List Char} (h : startsOther cs = true) (rest : List Char) :
    '\n' ∉ cs ∧ trimRow (cs ++ rest) ≠ mainRow := by
  rw [startsOther, Bool.and_eq_true, areInline, Bool.and_eq_true, Bool.not_eq_true',
    Bool.not_eq_true', List.contains_eq_mem, decide_eq_false_iff_not] at h
  obtain ⟨⟨-, hbreak⟩, hstart⟩ := h
  refine ⟨hbreak, fun hmain => ?_⟩
  cases htrim : trimRow cs with
  | nil =>
    rw [htrim] at hstart
    cases hstart
  | cons c more =>
    rw [trimRow] at htrim
    rw [trimRow, List.dropWhile_append, htrim, mainRow_eq] at hmain
    rw [trimRow, htrim, (List.cons.inj hmain).1] at hstart
    cases hstart

/-- A fixed row with a text in it. -/
theorem outside_insert {cs ds : List Char} {text : String} (hcs : startsOther cs = true)
    (htext : '\n' ∉ text.toList) (hds : ds.contains '\n' = false) :
    '\n' ∉ (String.ofList cs ++ text ++ String.ofList ds).toList ∧
      trimRow (String.ofList cs ++ text ++ String.ofList ds).toList ≠ mainRow := by
  obtain ⟨hopen, hmain⟩ := trimRow_ne_of_startsOther hcs (text.toList ++ ds)
  rw [String.toList_append, String.toList_append, String.toList_ofList, String.toList_ofList,
    List.append_assoc, List.mem_append, List.mem_append]
  refine ⟨?_, hmain⟩
  rintro (hmem | hmem | hmem)
  · exact hopen hmem
  · exact htext hmem
  · rw [List.contains_eq_mem, decide_eq_false_iff_not] at hds
    exact hds hmem

theorem outside_preludeRows {canvas tick : String} (hcanvas : '\n' ∉ canvas.toList)
    (htick : '\n' ∉ tick.toList) :
    ∀ row ∈ preludeRows canvas tick, '\n' ∉ row.toList ∧ trimRow row.toList ≠ mainRow := by
  have hfixed {rows : List String} (h : ∀ row ∈ rows, isFixedRow row.toList = true) :=
    fun row hrow => (isFixedRow_iff.1 (h row hrow)).2
  unfold preludeRows
  refine List.forall_mem_append.2 ⟨List.forall_mem_append.2 ⟨List.forall_mem_append.2
    ⟨List.forall_mem_cons.2 ⟨?_, List.forall_mem_cons.2 ⟨?_, List.forall_mem_singleton.2 ?_⟩⟩,
      hfixed isFixedRow_runtimeRows⟩,
    List.forall_mem_singleton.2 ?_⟩, hfixed isFixedRow_helperRows⟩
  · exact (isFixedRow_iff.1 (forall_fixed_cons (by decide) (List.forall_mem_nil _) _
      List.mem_cons_self)).2
  · exact outside_insert (by decide) hcanvas (by decide)
  · exact outside_insert (by decide) hcanvas (by decide)
  · exact outside_insert (by decide) htick (by decide)

theorem Script.lineFeed_not_mem_tick (fps : Int) : '\n' ∉ (tick fps).toList := by
  unfold tick
  split
  · exact lineFeed_not_mem_ofList (by decide)
  · simp only
    split
    · exact lineFeed_not_mem_ofList (by decide)
    · exact not_mem_of_all (Decimal.format_chars _ _).2 (by decide)

/-! ## The lines of a program -/

/-- The line that opens the main function. -/
def mainLine : Line := { text := r"(function main() {" }

/-- The line that closes the main function. -/
def endLine : Line := { text := r"})();" }

/-- The trace of the main function. -/
def Program.bodyTrace (minify : Bool) (p : Program) : Trace :=
  let t := Trace.indented (Stmt.traces [] {} p)
  if minify then t.compact else t

theorem Program.lines_mainScript {p : Program} (h : Tidy (indented (Stmt.scripts {} p).2)) :
    lines p.mainScript = { text := "// Main program" } :: mainLine ::
      (lines (indented (Stmt.scripts {} p).2) ++ [endLine]) := by
  have hbody : lines (braced r"})();" (Stmt.scripts {} p).2) =
      lines (indented (Stmt.scripts {} p).2) ++ [endLine] := by
    have hlines := h.lines_append ({ content := .leave } :: line r"})();")
    have hend : lines ({ content := .leave } :: line r"})();") = [endLine] := by
      simp [lines, linesFrom, line, code, lineEnd, Item.endsLine, Item.writeOn, Content.text, endLine]
    rw [hend] at hlines
    rw [← hlines, braced, inScope]
    simp [lines, linesFrom, Item.endsLine, Item.writeOn, Content.text]
  have hcomment : "// " ++ "Main program" = "// Main program" := by decide
  rw [← hbody, Program.mainScript]
  simp [lines, linesFrom, comment, code, Script.bind, lineEnd, Item.endsLine, Item.writeOn,
    Content.text, hcomment, mainLine]

theorem Program.lines_fullScript {p : Program} (h : Tidy (indented (Stmt.scripts {} p).2))
    (canvas : String) (fps : Int) :
    lines (p.fullScript canvas fps) =
      (lines (prelude canvas fps) ++ [⟨0, none, ""⟩, ⟨0, none, "// Main program"⟩]) ++
        mainLine :: (lines (indented (Stmt.scripts {} p).2) ++ [endLine]) := by
  have hprelude : Tidy (prelude canvas fps) := Tidy.ofText _
  rw [p.fullScript_eq, hprelude.lines_append, Tidy.blankLine.1.lines_append, Tidy.blankLine.2,
    Program.lines_mainScript h, List.append_assoc]
  rfl

/-- The line comes from nowhere and does not open the main function. -/
def Script.Line.Outside (l : Line) : Prop := l.origin = none ∧ l.text.toList ≠ mainRow

theorem Script.outside_prelude {canvas : String} (hcanvas : '\n' ∉ canvas.toList) (fps : Int) :
    ∀ l ∈ lines (prelude canvas fps) ++ [⟨0, none, ""⟩, ⟨0, none, "// Main program"⟩],
      l.Outside := by
  have hrows := outside_preludeRows (lineFeed_not_mem_escapeQuotes hcanvas)
    (lineFeed_not_mem_tick fps)
  intro l hl
  rcases List.mem_append.1 hl with hl | hl
  · obtain ⟨horigin, row, hrow, htext⟩ := mem_lines_ofText hl
    refine ⟨horigin, ?_⟩
    rw [preludeText, rowsOf_unlines fun row hrow => (hrows row hrow).1, List.mem_append] at hrow
    rw [htext, String.toList_ofList]
    rcases hrow with hrow | hrow
    · obtain ⟨r, hr, rfl⟩ := List.mem_map.1 hrow
      exact (hrows r hr).2
    · rw [List.mem_singleton.1 hrow, mainRow_eq]
      decide
  · rcases List.mem_pair.1 hl with rfl | rfl
    · exact ⟨rfl, by decide⟩
    · exact ⟨rfl, by decide⟩

theorem Script.Style.lineFeed_not_mem_canvasId {style : Style} (h : '\n' ∉ style.canvas.toList) :
    '\n' ∉ style.canvasId.toList := by
  unfold canvasId
  split
  · exact lineFeed_not_mem_ofList (by decide)
  · exact h

/-- The script of the main function's body. -/
theorem Program.script_bodyTrace (p : Program) (minify : Bool) :
    (p.bodyTrace minify).script =
      if minify then compact (indented (Stmt.scripts {} p).2)
      else indented (Stmt.scripts {} p).2 := by
  have hbody : (Trace.indented (Stmt.traces [] {} p)).script = indented (Stmt.scripts {} p).2 := by
    rw [Trace.script_indented, Stmt.script_traces]
  unfold Program.bodyTrace
  cases minify with
  | false => exact hbody
  | true => exact (Trace.script_compact _).trans (congrArg compact hbody)

/-- The lines of a program in any style: those of its main function, and others around them. -/
theorem Program.exists_lines_script {p : Program}
    (h : Leads .fresh (Stmt.scripts {} p).2 .fresh) {style : Style}
    (hcanvas : '\n' ∉ style.canvas.toList) :
    ∃ before, (∀ l ∈ before, l.Outside) ∧ lines (p.script style) =
      before ++ mainLine :: (lines (p.bodyTrace style.minify).script ++ [endLine]) := by
  have htidy : Tidy (indented (Stmt.scripts {} p).2) :=
    (leads_indented h).tidy.1
  obtain ⟨before, hbefore, hlines⟩ : ∃ before, (∀ l ∈ before, Line.Outside l) ∧
      lines (p.fullScript style.canvasId style.fps) =
        before ++ mainLine :: (lines (indented (Stmt.scripts {} p).2) ++ [endLine]) :=
    ⟨_, outside_prelude (Style.lineFeed_not_mem_canvasId hcanvas) style.fps,
      Program.lines_fullScript htidy style.canvasId style.fps⟩
  unfold Program.script
  rw [p.script_bodyTrace]
  cases style.minify with
  | false => exact ⟨before, hbefore, hlines⟩
  | true =>
    have hcompact := (Program.tidy_fullScript h style.canvasId style.fps).lines_compact
    rw [hlines, List.filter_append, List.filter_cons_of_pos (by decide), List.filter_append,
      List.filter_cons_of_pos (by decide), List.filter_nil, List.map_append, List.map_cons,
      List.map_append, ← htidy.lines_compact] at hcompact
    refine ⟨_, List.forall_mem_map.2 fun l hl => ?_, hcompact⟩
    exact hbefore l (List.mem_of_mem_filter hl)

theorem Program.isRow_script {p : Program} (h : Leads .fresh (Stmt.scripts {} p).2 .fresh)
    (style : Style) : ∀ l ∈ lines (p.script style), l.IsRow := by
  have htidy := Program.tidy_fullScript h style.canvasId style.fps
  unfold Program.script
  cases style.minify with
  | false => exact htidy.isRow
  | true =>
    show ∀ l ∈ lines (compact (p.fullScript style.canvasId style.fps)), l.IsRow
    rw [htidy.lines_compact]
    refine List.forall_mem_map.2 fun l hl => ?_
    have hrow := htidy.isRow l (List.mem_of_mem_filter hl)
    exact ⟨hrow.unbroken, hrow.trimmed⟩

/-- No line of the main function is blank. -/
theorem Program.text_ne_empty {p : Program} (h : Leads .fresh (Stmt.scripts {} p).2 .fresh)
    (minify : Bool) : ∀ l ∈ lines (p.bodyTrace minify).script, l.text ≠ "" := by
  have htidy := (leads_indented h).tidy
  rw [p.script_bodyTrace]
  cases minify with
  | false => exact htidy.2
  | true =>
    rw [if_pos rfl, htidy.1.lines_compact]
    exact List.forall_mem_map.2 fun l hl => htidy.2 l (List.mem_of_mem_filter hl)

/-- Every line of the main function comes from a place with the property that all places of the
program have. -/
theorem Program.exists_origin {P : Position → Prop} {p : Program}
    (h : Leads .fresh (Stmt.scripts {} p).2 .fresh)
    (hP : ∀ s ∈ p, s.From (fun t => P t.position) fun e => P e.position) (minify : Bool) :
    ∀ l ∈ lines (p.bodyTrace minify).script, ∃ q, l.origin = some q ∧ P q := by
  have hplaced : (p.bodyTrace minify).Placed P := by
    have htraces := (Stmt.placed_traces hP [] {}).indented
    unfold Program.bodyTrace
    cases minify with
    | false => exact htraces
    | true => exact htraces.compact
  have hitems : ∀ i ∈ (p.bodyTrace minify).script, ∃ q, i.origin = some q ∧ P q :=
    List.forall_mem_map.2 hplaced
  intro l hl
  exact exists_origin_of_mem_linesFrom hitems (by rintro _ ⟨⟩) l hl (Program.text_ne_empty h _ l hl)

/-! ## The map of a program -/

theorem exists_eq_map_some {α β : Type} {f : α → Option β} {as : List α}
    (h : ∀ a ∈ as, ∃ b, f a = some b) : ∃ bs : List β, as.map f = bs.map some := by
  induction as with
  | nil => exact ⟨[], rfl⟩
  | cons a as ih =>
    obtain ⟨⟨b, hb⟩, has⟩ := List.forall_mem_cons.1 h
    obtain ⟨bs, hbs⟩ := ih has
    exact ⟨b :: bs, by rw [List.map_cons, List.map_cons, hb, hbs]⟩

theorem Trace.length_lines (t : Trace) : t.lines.length = t.script.lines.length := by
  have horigins := congrArg List.length t.map_origin_lines
  rw [List.length_map, List.length_map] at horigins
  exact horigins.symm

/-- The places of the constructs that are chosen for the lines of a trace. -/
theorem Trace.map_position {t : Trace} {f : List Construct → Option Construct}
    {writers : List Construct} (h : t.lines.map (·.bind f) = writers.map some) :
    (t.lines.map fun cs => (cs.bind f).map Construct.position) =
      writers.map fun c => some c.position := by
  calc (t.lines.map fun cs => (cs.bind f).map Construct.position)
      = (t.lines.map (·.bind f)).map (·.map Construct.position) := by
        rw [List.map_map]
        rfl
    _ = writers.map fun c => some c.position := by
        rw [h, List.map_map]
        rfl

/-- The constructs that write the lines of a trace, where every line has an origin. -/
theorem Trace.exists_writers {t : Trace} (h : ∀ l ∈ t.script.lines, ∃ q, l.origin = some q) :
    ∃ writers : List Construct, t.lines.map (·.bind Construct.innermost?) = writers.map some ∧
      t.script.lines.map Line.origin = writers.map fun c => some c.position := by
  have horigins : t.script.lines.map Line.origin =
      t.lines.map fun cs => (cs.bind Construct.innermost?).map Construct.position := by
    rw [t.map_origin_lines]
    refine List.map_congr_left fun cs _ => ?_
    cases cs <;> rfl
  have hwriters : ∀ cs ∈ t.lines, ∃ c, cs.bind Construct.innermost? = some c := by
    intro cs hcs
    have hmem : (cs.bind Construct.innermost?).map Construct.position ∈
        t.script.lines.map Line.origin := by
      rw [horigins]
      exact List.mem_map_of_mem hcs
    obtain ⟨l, hl, heq⟩ := List.mem_map.1 hmem
    obtain ⟨q, hq⟩ := h l hl
    rw [hq] at heq
    obtain ⟨c, hc, -⟩ := Option.map_eq_some_iff.1 heq.symm
    exact ⟨c, hc⟩
  obtain ⟨writers, hmap⟩ := exists_eq_map_some hwriters
  exact ⟨writers, hmap, horigins.trans (map_position hmap)⟩

namespace Script

theorem filterMap_origin_eq_nil {ls : List Line} (h : ∀ l ∈ ls, l.origin = none) (k : Nat) :
    ((ls.zipIdx k).filterMap fun (l, n) => l.origin.map fun p => (n, p)) = [] := by
  refine List.filterMap_eq_nil_iff.2 fun x hx => ?_
  have hx := h x.1 (List.fst_mem_of_mem_zipIdx hx)
  show x.1.origin.map _ = none
  rw [hx]
  rfl

theorem filterMap_origin_eq_map {ls : List Line} {writers : List Construct}
    (h : ls.map Line.origin = writers.map fun c => some c.position) (k : Nat) :
    ((ls.zipIdx k).filterMap fun (l, n) => l.origin.map fun p => (n, p)) =
      (writers.zipIdx k).map fun (c, n) => (n, c.position) := by
  induction ls generalizing writers k with
  | nil =>
    obtain rfl : writers = [] := by simpa using h
    rfl
  | cons l ls ih =>
    cases writers with
    | nil => cases h
    | cons c writers =>
      obtain ⟨hl, hls⟩ := List.cons.inj h
      rw [List.zipIdx_cons, List.zipIdx_cons, List.filterMap_cons, List.map_cons, ih hls]
      simp only [hl]
      rfl

end Script

/-- The rows of a raw text, between its line feeds. -/
def RawText.rows (r : RawText) : List (List Text.Glyph) := r.glyphs.splitOn (.char '\n')

/-- The row that refers to the map of a script. -/
def LineMap.referenceRow (m : LineMap) : List Text.Glyph :=
  (("//# sourceMappingURL=" : RawText) ++ m.file ++ (".map" : RawText)).glyphs

/-- The output of a build has the rows of its script and a row that refers to the map. -/
theorem Build.rows_output {s : Script} {m : LineMap} (hrows : ∀ l ∈ s.lines, l.IsRow)
    (hfile : .char '\n' ∉ m.file.glyphs) :
    (Build.output ⟨s.print, some m⟩).rows =
      (s.lines.map Line.row).map (·.map .char) ++ [m.referenceRow, []] := by
  have hchars {cs : List Char} (hcs : '\n' ∉ cs) : .char '\n' ∉ cs.map Text.Glyph.char := by
    simpa using hcs
  have hparts : ∀ row ∈ s.lines.map (fun l => l.row.map Text.Glyph.char) ++ [m.referenceRow],
      .char '\n' ∉ row := by
    refine List.forall_mem_append.2 ⟨List.forall_mem_map.2 fun l hl => ?_,
      List.forall_mem_singleton.2 ?_⟩
    · exact hchars (Line.not_mem_row (hrows l hl))
    · show Text.Glyph.char '\n' ∉ "//# sourceMappingURL=".toList.map .char ++ m.file.glyphs ++
        ".map".toList.map .char
      rw [List.mem_append, List.mem_append]
      rintro ((hmem | hmem) | hmem)
      · exact hchars (lineFeed_not_mem_ofList (by decide)) hmem
      · exact hfile hmem
      · exact hchars (lineFeed_not_mem_ofList (by decide)) hmem
  have hglyphs : (Build.output ⟨s.print, some m⟩).glyphs =
      (s.lines.map (fun l => l.row.map Text.Glyph.char) ++ [m.referenceRow]).flatMap
        (· ++ [.char '\n']) := by
    have hscript : (RawText.ofString s.print).glyphs =
        (s.lines.map fun l => l.row.map Text.Glyph.char).flatMap (· ++ [.char '\n']) := by
      rw [RawText.ofString, toList_print, List.map_flatMap, List.flatMap_map]
      simp only [List.map_append, List.map_cons, List.map_nil]
    have hreference : (Build.reference ⟨s.print, some m⟩).glyphs =
        m.referenceRow ++ [.char '\n'] := by
      have hend : ".map\n".toList = ".map".toList ++ ['\n'] := by decide
      show "//# sourceMappingURL=".toList.map Text.Glyph.char ++ m.file.glyphs ++
        ".map\n".toList.map .char = _
      rw [hend, List.map_append, ← List.append_assoc]
      rfl
    rw [List.flatMap_append, ← hscript, List.flatMap_singleton, ← hreference]
    rfl
  have hsplit := splitOn_flatMap_append hparts []
  rw [List.append_nil, ← hglyphs, List.append_assoc] at hsplit
  rw [List.map_map]
  exact hsplit

/-- The map of a program holds the lines of its main function, each with the construct that writes
its first text. -/
theorem Program.exists_map {o : Options} {p : Program} (hmap : o.lineMap = true)
    (hcanvas : '\n' ∉ o.canvas.toList) (h : Leads .fresh (Stmt.scripts {} p).2 .fresh)
    (hplaces : ∀ s ∈ p, s.From (fun t => t.position.Within (2 ^ 60))
      fun e => e.position.Within (2 ^ 60)) :
    ∃ (m : LineMap) (before : List Line) (writers : List Construct),
      (p.build o).map = some m ∧ m.file = o.output ∧
      lines (p.script o.toStyle) =
        before ++ mainLine :: (lines (p.bodyTrace o.minify).script ++ [endLine]) ∧
      (∀ l ∈ before, l.Outside) ∧
      (p.bodyTrace o.minify).lines.map (·.bind Construct.innermost?) = writers.map some ∧
      m.lines = .ok ((writers.zipIdx (before.length + 2)).map fun (c, n) =>
        (n, c.position.toMap)) := by
  obtain ⟨before, hbefore, hlines⟩ := Program.exists_lines_script h hcanvas
  have horigin := Program.exists_origin h hplaces o.minify
  obtain ⟨writers, hwriters, horigins⟩ := Trace.exists_writers fun l hl =>
    (horigin l hl).imp fun _ => And.left
  have hall : (p.script o.toStyle).origins =
      (writers.zipIdx (before.length + 2)).map fun (c, n) => (n, c.position) := by
    have hfirst : 1 + before.length + 1 = before.length + 2 := by omega
    rw [origins, hlines, List.zipIdx_append, List.zipIdx_cons, List.zipIdx_append,
      List.filterMap_append, List.filterMap_cons_none rfl, List.filterMap_append,
      filterMap_origin_eq_nil fun l hl => (hbefore l hl).1, filterMap_origin_eq_map horigins,
      filterMap_origin_eq_nil (List.forall_mem_singleton.2 rfl), hfirst, List.nil_append,
      List.append_nil]
  refine ⟨_, before, writers, by rw [Program.build, if_pos hmap], rfl, hlines, hbefore, hwriters, ?_⟩
  refine (lines_ofOrigins (Program.isRow_script h o.toStyle) ?_ o.output o.source).trans ?_
  · rw [hlines]
    intro l hl q hq
    rcases List.mem_append.1 hl with hl | hl
    · rw [(hbefore l hl).1] at hq
      cases hq
    · rcases List.mem_cons.1 hl with rfl | hl
      · cases hq
      · rcases List.mem_append.1 hl with hl | hl
        · obtain ⟨r, hr, hwithin⟩ := horigin l hl
          rw [hr, Option.mem_some_iff] at hq
          exact hq ▸ hwithin
        · rw [List.mem_singleton.1 hl] at hq
          cases hq
  · rw [hall, List.map_map]
    rfl

/-- A source that compiles is built from the program that is read from it. -/
theorem compile_eq_ok {o : Options} {source : String} {b : Build} (h : compile o source = .ok b) :
    b = (parse (Token.lex source)).1.build o := by
  unfold compile at h
  simp only at h
  split at h
  · exact (Except.ok.inj h).symm
  · cases h

/-- The entries of a map tell where the constructs stand. -/
theorem map_position_of_entries {writers writers' : List Construct} {first first' : Nat}
    (h : ((writers.zipIdx first).map fun (c, n) => (n, c.position.toMap)) =
      (writers'.zipIdx first').map fun (c, n) => (n, c.position.toMap)) :
    writers.map Construct.position = writers'.map Construct.position := by
  have hinjective : Function.Injective Position.toMap := by
    rintro ⟨line, column⟩ ⟨line', column'⟩ heq
    simpa [Position.toMap] using heq
  have hplaces (cs : List Construct) (k : Nat) :
      ((cs.zipIdx k).map fun (c, n) => (n, c.position.toMap)).map Prod.snd =
        (cs.map Construct.position).map Position.toMap := by
    conv_rhs => rw [← List.zipIdx_map_fst k cs]
    rw [List.map_map, List.map_map, List.map_map]
    rfl
  have hmaps := congrArg (List.map Prod.snd) h
  rw [hplaces, hplaces] at hmaps
  exact List.map_injective_iff.2 hinjective hmaps

theorem compile_of_check {o : Options} {source : String} (h : check source = []) :
    compile o source = .ok ((parse (Token.lex source)).1.build o) := by
  unfold compile
  simp only
  rw [show (Checkup.ofSource source).diagnostics source = [] from h]
  rfl

theorem Program.build_eq {o : Options} {p : Program} {m : LineMap} (h : (p.build o).map = some m) :
    p.build o = ⟨(p.script o.toStyle).print, some m⟩ := by
  rw [← h, ← Program.script_build]

theorem Options.lineFeed_not_mem_output {o : Options} (h : .char '\n' ∉ o.outputName.glyphs) :
    .char '\n' ∉ o.output.glyphs := by
  unfold Options.output
  split
  · decide
  · exact h

/-- Every place in a source that is read is within the bound that the length of the source sets. -/
theorem from_parse_within {source : String} {bound : Nat} (h : source.length < bound) :
    ∀ s ∈ (parse (Token.lex source)).1, s.From (fun t => t.position.Within bound)
      fun e => e.position.Within bound := by
  refine from_parse (Expr.hereditary_position (Position.Within bound)) ?_ fun t ht => ?_
  · exact ⟨Nat.zero_le _, Nat.zero_le _⟩
  · have hwithin := Token.within_lex source t ht
    exact ⟨Nat.le_trans hwithin.1 h, Nat.le_trans hwithin.2 h⟩

theorem Script.Line.Outside.row_ne {l : Line} (h : l.Outside) (hrow : l.IsRow) :
    l.row ≠ mainRow := by
  intro heq
  have htrim : trimRow mainRow = mainRow := by
    rw [mainRow_eq]
    decide
  rw [← heq, Line.trimRow_row hrow, heq] at htrim
  exact h.2 htrim

/-- The line map of a source that compiles holds the rows between the one that opens the main
function and the last one, which closes it, and no others.  Each comes from the innermost statement
or command that is being written at its first character, where the clauses of a loop are part of the
loop. -/
theorem lineMap_exact {o : Options} {source : String} {b : Build} (hmap : o.lineMap = true)
    (hcanvas : '\n' ∉ o.canvas.toList) (houtput : .char '\n' ∉ o.outputName.glyphs)
    (hsource : source.length < 2 ^ 60) (h : compile o source = .ok b) :
    let trace := Program.bodyTrace o.minify (parse (Token.lex source)).1
    ∃ (m : LineMap) (before : List (List Char)) (writers : List Construct),
      b.map = some m ∧
      b.output.rows = (before ++ mainRow :: (trace.script.lines.map Line.row ++ [endRow])).map
        (·.map .char) ++ [m.referenceRow, []] ∧
      mainRow ∉ before ∧
      writers.length = trace.script.lines.length ∧
      trace.lines.map (·.bind Construct.innermost?) = writers.map some ∧
      m.lines = .ok ((writers.zipIdx (before.length + 2)).map fun (c, n) =>
        (n, c.position.toMap)) := by
  intro trace
  have hleads := leads_parse source
  obtain ⟨m, before, writers, hm, hfile, hlines, hbefore, hwriters, hentries⟩ :=
    Program.exists_map hmap hcanvas hleads (from_parse_within hsource)
  have hb := compile_eq_ok h
  have hrows := Program.isRow_script hleads o.toStyle
  refine ⟨m, before.map Line.row, writers, hb ▸ hm, ?_, ?_, ?_, hwriters, ?_⟩
  · have houtput : .char '\n' ∉ m.file.glyphs := hfile ▸ o.lineFeed_not_mem_output houtput
    have hall : (lines (Program.script o.toStyle (parse (Token.lex source)).1)).map Line.row =
        before.map Line.row ++ mainRow :: (trace.script.lines.map Line.row ++ [endRow]) := by
      rw [hlines, List.map_append, List.map_cons, List.map_append]
      rfl
    rw [hb, Program.build_eq hm, Build.rows_output hrows houtput, hall]
  · rw [List.mem_map]
    rintro ⟨l, hl, hrow⟩
    refine (hbefore l hl).row_ne (hrows l ?_) hrow
    rw [hlines]
    exact List.mem_append_left _ hl
  · have hlength := congrArg List.length hwriters
    rw [List.length_map, List.length_map] at hlength
    rw [← hlength]
    exact trace.length_lines
  · rw [List.length_map]
    exact hentries

/-- A conditional with a statement in it, and a block with a command. -/
theorem lineMap_exact_nested :
    let source := "if null { return }\nanimate { fade null }"
    let o : Options := { lineMap := true, outputName := "a.js" }
    let trace := Program.bodyTrace o.minify (parse (Token.lex source)).1
    ∃ (b : Build) (m : LineMap) (before : List (List Char)),
      compile o source = .ok b ∧ b.map = some m ∧
      b.output.rows = (before ++ mainRow :: (trace.script.lines.map Line.row ++ [endRow])).map
        (·.map .char) ++ [m.referenceRow, []] ∧
      mainRow ∉ before ∧
      m.lines = .ok (([⟨1, 1⟩, ⟨1, 11⟩, ⟨1, 1⟩, ⟨2, 1⟩, ⟨2, 1⟩, ⟨2, 1⟩, ⟨2, 11⟩, ⟨2, 1⟩, ⟨2, 1⟩,
        ⟨2, 1⟩].zipIdx (before.length + 2)).map fun (p, n) => (n, Position.toMap p)) := by
  intro source o trace
  have hcompile : compile o source = .ok _ := compile_of_check (by decide +kernel)
  obtain ⟨m, before, writers, hm, hrows, hbefore, -, hwriters, hlines⟩ :=
    lineMap_exact rfl (by decide) (by decide) (by decide +kernel) hcompile
  refine ⟨_, m, before, hcompile, hm, hrows, hbefore, ?_⟩
  have hplaces : writers.map Construct.position = [⟨1, 1⟩, ⟨1, 11⟩, ⟨1, 1⟩, ⟨2, 1⟩, ⟨2, 1⟩, ⟨2, 1⟩,
      ⟨2, 11⟩, ⟨2, 1⟩, ⟨2, 1⟩, ⟨2, 1⟩] := by
    refine List.map_injective_iff.2 (Option.some_injective _) ?_
    rw [List.map_map]
    exact (Trace.map_position hwriters).symm.trans (by decide +kernel)
  rw [hlines, ← hplaces, List.zipIdx_map, List.map_map]
  rfl

/-- Where the first clause of a loop is a drawing of several lines, they come from the loop. -/
theorem lineMap_ignores_clause :
    let source := r"for (let c = circle at (null, null) size null color null; null; ) { }"
    let o : Options := { lineMap := true }
    let trace := Program.bodyTrace o.minify (parse (Token.lex source)).1
    ∃ (b : Build) (m : LineMap), compile o source = .ok b ∧ b.map = some m ∧
      ¬ ∃ (first : Nat) (writers : List Construct),
        trace.lines.map (·.bind List.head?) = writers.map some ∧
        m.lines = .ok ((writers.zipIdx first).map fun (c, n) => (n, c.position.toMap)) := by
  intro source o trace
  have hcompile : compile o source = .ok _ := compile_of_check (by decide +kernel)
  obtain ⟨m, before, writers, hm, -, -, -, hwriters, hlines⟩ :=
    Program.exists_map (show o.lineMap = true from rfl) (by decide) (leads_parse source)
      (from_parse_within (by decide +kernel))
  refine ⟨_, m, hcompile, hm, ?_⟩
  rintro ⟨first, heads, hheads, hlines'⟩
  have hsame := map_position_of_entries (Except.ok.inj (hlines.symm.trans hlines'))
  have hne : (trace.lines.map fun cs => (cs.bind Construct.innermost?).map Construct.position) ≠
      trace.lines.map fun cs => (cs.bind List.head?).map Construct.position := by
    decide +kernel
  apply hne
  rw [Trace.map_position hwriters, Trace.map_position hheads]
  have hsome := congrArg (List.map some) hsame
  rw [List.map_map, List.map_map] at hsome
  exact hsome

end Easel
