import Easel.Proofs.Lookup
import Easel.Script.Basic
import Mathlib.Data.List.Flatten
import Mathlib.Tactic.Common

/-!
# Lines of scripts and rows of text

The text of a script has a row for each of its lines, as long as no line has a line feed in it
(`rowsOf_print`).  A script is `Tidy` if it consists of whole lines and its layout is all that a
reader of the text would take for layout: blank rows and comments.  Without its layout such a script
is written as the text without its layout (`print_compact`), and the lines that are left keep their
origins (`origins_compact`).

A script that writes line after line is tidy (`Leads.tidy`): `Leads a s b` follows the items of the
script from the start of a line, or from the middle of one.
-/

namespace Easel.Script

/-! ## Rows of text -/

/-- The rows of a text, between its line feeds. -/
def rowsOf (text : String) : List (List Char) := text.toList.splitOn '\n'

/-- The row without the blanks it starts with. -/
def trimRow (row : List Char) : List Char := row.dropWhile (· == ' ')

/-- Whether a row, trimmed, is neither empty nor a comment. -/
def isCodeRow (row : List Char) : Bool := !row.isEmpty && !List.isPrefixOf ['/', '/'] row

/-- The text without the blanks its rows start with, its empty rows and its comments. -/
def withoutLayout (text : String) : String :=
  String.ofList ((((rowsOf text).map trimRow).filter isCodeRow).flatMap (· ++ ['\n']))

/-- Whether the row with a number, counted from one, is kept in the text without its layout. -/
def keepsRow (text : String) (n : Nat) : Bool :=
  ((rowsOf text)[n - 1]?).any fun row => isCodeRow (trimRow row)

/-- The number of such a row in the text without its layout. -/
def keptNumber (text : String) (n : Nat) : Nat :=
  ((rowsOf text).take n).countP fun row => isCodeRow (trimRow row)

/-! ## Lines -/

namespace Line

/-- The row of a line. -/
def row (l : Line) : List Char := List.replicate (2 * l.indent) ' ' ++ l.text.toList

/-- Whether a line is neither blank nor a comment. -/
def isCode (l : Line) : Bool := isCodeRow l.text.toList

/-- The line without its indentation. -/
def flush (l : Line) : Line := { l with indent := 0 }

/-- The line is written as one row, and all blanks at its start are indentation. -/
structure IsRow (l : Line) : Prop where
  unbroken : '\n' ∉ l.text.toList
  trimmed : l.text.toList.head? ≠ some ' '

theorem trimRow_row {l : Line} (h : l.IsRow) : trimRow l.row = l.text.toList := by
  have hblanks : ∀ c ∈ List.replicate (2 * l.indent) ' ', (c == ' ') = true := by
    intro c hc
    rw [List.eq_of_mem_replicate hc]
    rfl
  rw [trimRow, row, List.dropWhile_append_of_pos hblanks]
  cases ht : l.text.toList with
  | nil => rfl
  | cons c cs =>
    have hc := h.trimmed
    rw [ht, List.head?_cons, ne_eq, Option.some.injEq] at hc
    exact List.dropWhile_cons_of_neg (by simpa using hc)

theorem not_mem_row {l : Line} (h : l.IsRow) : '\n' ∉ l.row := by
  intro hmem
  rcases List.mem_append.1 hmem with hmem | hmem
  · exact absurd (List.eq_of_mem_replicate hmem) (by decide)
  · exact h.unbroken hmem

end Line

theorem toList_print (s : Script) :
    (print s).toList = s.lines.flatMap fun l => l.row ++ ['\n'] := by
  rw [print]
  induction s.lines with
  | nil => rfl
  | cons l ls ih =>
    rw [List.map_cons, String.join_cons, String.toList_append, ih, List.flatMap_cons]
    simp [Line.print, Line.row]

/-- The text of a script has a row for each line, and nothing behind the last line end. -/
theorem rowsOf_print {s : Script} (h : ∀ l ∈ s.lines, l.IsRow) :
    rowsOf (print s) = s.lines.map Line.row ++ [[]] := by
  have hrows : ∀ row ∈ s.lines.map Line.row, '\n' ∉ row :=
    List.forall_mem_map.2 fun l hl => Line.not_mem_row (h l hl)
  have hsplit := splitOn_flatMap_append hrows []
  rwa [List.append_nil, List.flatMap_map, ← toList_print] at hsplit

/-! ## Tidy scripts -/

theorem compact_append (s t : Script) : compact (s ++ t) = compact s ++ compact t := by
  simp [compact]

/-- The script consists of whole lines.  Each is written as one row, and those that show no code are
the ones that are left out with the layout. -/
structure Tidy (s : Script) : Prop where
  lines_append : ∀ t, lines (s ++ t) = lines s ++ lines t
  lines_compact_append : ∀ t,
    lines (compact s ++ t) = ((lines s).filter Line.isCode).map Line.flush ++ lines t
  isRow : ∀ l ∈ lines s, l.IsRow

namespace Tidy

variable {s t : Script}

theorem nil : Tidy [] := ⟨fun _ => rfl, fun _ => rfl, List.forall_mem_nil _⟩

theorem lines_compact (h : Tidy s) :
    lines (compact s) = ((lines s).filter Line.isCode).map Line.flush := by
  have hlines := h.lines_compact_append []
  rwa [List.append_nil, show lines [] = [] from rfl, List.append_nil] at hlines

theorem append (hs : Tidy s) (ht : Tidy t) : Tidy (s ++ t) := by
  refine ⟨fun u => ?_, fun u => ?_, ?_⟩
  · rw [List.append_assoc, hs.lines_append, ht.lines_append, hs.lines_append, List.append_assoc]
  · rw [compact_append, List.append_assoc, hs.lines_compact_append, ht.lines_compact_append,
      hs.lines_append, List.filter_append, List.map_append, List.append_assoc]
  · rw [hs.lines_append]
    exact List.forall_mem_append.2 ⟨hs.isRow, ht.isRow⟩

theorem flatMap {α : Type} {f : α → Script} {as : List α} (h : ∀ a ∈ as, Tidy (f a)) :
    Tidy (as.flatMap f) := by
  induction as with
  | nil => exact nil
  | cons a as ih =>
    obtain ⟨ha, has⟩ := List.forall_mem_cons.1 h
    rw [List.flatMap_cons]
    exact ha.append (ih has)

/-- One line, from a script that shows it as it is or, without layout, as the same code. -/
theorem of_line {l : Line} (hl : l.IsRow) (hs : ∀ t, linesFrom none (s ++ t) = l :: linesFrom none t)
    (hcompact : ∀ t, linesFrom none (compact s ++ t) =
      (if l.isCode then [l.flush] else []) ++ linesFrom none t) : Tidy s ∧ lines s = [l] := by
  have hlines : lines s = [l] := by
    have hnil := hs []
    rwa [List.append_nil] at hnil
  refine ⟨⟨fun t => ?_, fun t => ?_, ?_⟩, hlines⟩
  · rw [hlines]
    exact hs t
  · rw [hlines]
    refine (hcompact t).trans ?_
    cases hcode : l.isCode <;> simp [hcode, lines]
  · rw [hlines]
    exact List.forall_mem_singleton.2 hl

theorem blankLine : Tidy blankLine ∧ lines Script.blankLine = [{}] :=
  of_line ⟨by simp, by simp⟩ (fun _ => rfl) fun _ => rfl

/-- One line of a fixed text. -/
theorem ofTextLine {row : List Char} (h : '\n' ∉ row) : Tidy (ofTextLine row) ∧
    ∃ level, lines (Script.ofTextLine row) = [⟨level, none, String.ofList (trimRow row)⟩] := by
  unfold Script.ofTextLine trimRow
  cases htrim : row.dropWhile (· == ' ') with
  | nil => exact ⟨blankLine.1, 0, blankLine.2⟩
  | cons c cs =>
    have hbreak : '\n' ∉ c :: cs := by
      rw [← htrim]
      exact fun hmem => h ((List.dropWhile_suffix _).mem hmem)
    have hc : c ≠ ' ' := by
      have hhead := List.head?_dropWhile_not (· == ' ') row
      simpa [htrim] using hhead
    have hrow (level : Nat) : Line.IsRow ⟨level, none, String.ofList (c :: cs)⟩ := by
      refine ⟨?_, ?_⟩ <;> rw [String.toList_ofList]
      · exact hbreak
      · simpa using hc
    have hcode : isCodeRow (c :: cs) = !(String.ofList (c :: cs)).startsWith "//" := by
      have hslashes : (String.ofList (c :: cs)).startsWith "//" =
          ['/', '/'].isPrefixOf (c :: cs) := by
        rw [Bool.eq_iff_iff, String.startsWith_string_iff, List.isPrefixOf_iff_prefix,
          String.toList_ofList, String.toList_ofList]
      rw [hslashes]
      rfl
    simp only
    split
    · next hslashes =>
      have hline := of_line (hrow (leadingBlanks row / 2))
        (s := [⟨.comment (String.ofList (c :: cs)), leadingBlanks row / 2, none⟩]) (fun t => by
          simp [linesFrom, Item.endsLine, Item.writeOn, Content.text]) fun t => by
          rw [Line.isCode, String.toList_ofList, hcode, hslashes]
          rfl
      exact ⟨hline.1, _, hline.2⟩
    · next hslashes =>
      have hline := of_line (hrow (leadingBlanks row / 2))
        (s := [⟨.code (String.ofList (c :: cs)), leadingBlanks row / 2, none⟩,
          { content := .lineEnd }]) (fun t => by
          simp [linesFrom, Item.endsLine, Item.writeOn, Content.text]) fun t => by
          rw [Line.isCode, String.toList_ofList, hcode, Bool.eq_false_iff.2 hslashes]
          simp [compact, Item.isLayout, linesFrom, Item.endsLine, Item.writeOn, Content.text,
            Line.flush]
      exact ⟨hline.1, _, hline.2⟩

theorem ofText (text : String) : Tidy (ofText text) :=
  flatMap fun row hrow => (ofTextLine (not_mem_of_mem_splitOn '\n' _ row hrow)).1

theorem lines_flatMap {α : Type} {f : α → Script} {as : List α} (h : ∀ a ∈ as, Tidy (f a)) :
    lines (as.flatMap f) = as.flatMap fun a => lines (f a) := by
  induction as with
  | nil => rfl
  | cons a as ih =>
    obtain ⟨ha, has⟩ := List.forall_mem_cons.1 h
    rw [List.flatMap_cons, List.flatMap_cons, ha.lines_append, ih has]

end Tidy

/-- A line of a fixed text is a row of it without indentation. -/
theorem mem_lines_ofText {text : String} {l : Line} (h : l ∈ lines (ofText text)) :
    l.origin = none ∧ ∃ row ∈ rowsOf text, l.text = String.ofList (trimRow row) := by
  have hrows {cs : List Char} (hl : l ∈ lines ((cs.splitOn '\n').flatMap ofTextLine)) :
      l.origin = none ∧ ∃ row ∈ cs.splitOn '\n', l.text = String.ofList (trimRow row) := by
    have hsplit := not_mem_of_mem_splitOn '\n' cs
    rw [Tidy.lines_flatMap fun row hrow => (Tidy.ofTextLine (hsplit row hrow)).1] at hl
    obtain ⟨row, hrow, hmem⟩ := List.mem_flatMap.1 hl
    obtain ⟨-, level, hline⟩ := Tidy.ofTextLine (hsplit row hrow)
    rw [hline, List.mem_singleton] at hmem
    rw [hmem]
    exact ⟨rfl, row, hrow, rfl⟩
  unfold ofText at h
  simp only at h
  split at h
  · next hlast =>
    -- the last row of a text that ends with a line feed is empty
    obtain ⟨horigin, row, hrow, htext⟩ := hrows h
    refine ⟨horigin, row, ?_, htext⟩
    have htext' : text.toList = text.toList.dropLast ++ ['\n'] :=
      (List.dropLast_append_getLast? _ hlast).symm
    rw [rowsOf, htext', List.splitOn_append_cons_self]
    exact List.mem_append_left _ hrow
  · exact hrows h

/-- Without its layout, a tidy script is written as its text without the layout. -/
theorem print_compact {s : Script} (h : Tidy s) : print (compact s) = withoutLayout (print s) := by
  have hrows : ((rowsOf (print s)).map trimRow).filter isCodeRow =
      (s.lines.filter Line.isCode).map fun l => l.text.toList := by
    have htrim : (s.lines.map Line.row).map trimRow = s.lines.map fun l => l.text.toList := by
      rw [List.map_map]
      exact List.map_congr_left fun l hl => Line.trimRow_row (h.isRow l hl)
    rw [rowsOf_print h.isRow, List.map_append, htrim, List.filter_append, List.filter_map]
    exact List.append_nil _
  rw [← String.toList_inj, toList_print, h.lines_compact, withoutLayout, String.toList_ofList, hrows,
    List.flatMap_map, List.flatMap_map]
  rfl

/-- Lines of which some are left out, numbered from where the lines before them end. -/
theorem filterMap_origins (keep : List Char → Bool) (rows : List (List Char))
    (before ls : List Line) (hrows : rows.take (before ++ ls).length = (before ++ ls).map Line.row)
    {q : Line → Bool} (hq : ∀ l ∈ before ++ ls, q l = keep l.row) :
    (((ls.filter q).map Line.flush).zipIdx (before.countP q + 1)).filterMap
        (fun (l, n) => l.origin.map fun p => (n, p)) =
      ((((ls.zipIdx (before.length + 1)).filterMap
        fun (l, n) => l.origin.map fun p => (n, p))).filter
          fun (n, _) => (rows[n - 1]?).any keep).map
          fun (n, p) => ((rows.take n).countP keep, p) := by
  induction ls generalizing before with
  | nil => rfl
  | cons l ls ih =>
    have hassoc : before ++ l :: ls = before ++ [l] ++ ls := by simp
    rw [hassoc] at hrows hq
    have hrest := ih _ hrows hq
    have hlength : (before ++ [l]).length = before.length + 1 := by simp
    have hrow : rows[before.length]? = some l.row := by
      have hget := congrArg (·[before.length]?) hrows
      simpa using hget
    have hkeep : q l = keep l.row := hq l (by simp)
    have hcount : (rows.take (before.length + 1)).countP keep = before.countP q + [l].countP q := by
      have htake : rows.take (before.length + 1) = (before ++ [l]).map Line.row := by
        have hshort := congrArg (List.take (before.length + 1)) hrows
        rw [List.take_take, ← List.map_take, ← hlength, List.take_left, hlength] at hshort
        rwa [Nat.min_eq_left (by simp)] at hshort
      rw [htake, List.countP_map, ← List.countP_append]
      exact List.countP_congr fun a ha => by
        rw [Function.comp_apply, hq a (List.mem_append_left _ ha)]
    rw [List.countP_append, hlength] at hrest
    rw [List.filter_cons, List.zipIdx_cons]
    cases hl : q l with
    | true =>
      rw [List.countP_singleton, hl] at hrest hcount
      rw [if_pos rfl, List.map_cons, List.zipIdx_cons]
      cases ho : l.origin with
      | none =>
        simp only [List.filterMap_cons, Line.flush, ho, Option.map_none]
        exact hrest
      | some p =>
        simp only [List.filterMap_cons, Line.flush, ho, Option.map_some, List.filter_cons,
          Nat.add_sub_cancel, hrow, Option.any_some, ← hkeep, hl, if_true, List.map_cons, hcount]
        exact congrArg _ hrest
    | false =>
      rw [List.countP_singleton, hl] at hrest
      rw [if_neg (by simp)]
      cases ho : l.origin with
      | none =>
        simp only [List.filterMap_cons, ho, Option.map_none]
        exact hrest
      | some p =>
        simp only [List.filterMap_cons, ho, Option.map_some, List.filter_cons, Nat.add_sub_cancel,
          hrow, Option.any_some, ← hkeep, hl, Bool.false_eq_true, if_false]
        exact hrest

/-- The lines that are left of a tidy script without its layout keep their origins, and those left
out take theirs with them. -/
theorem origins_compact {s : Script} (h : Tidy s) :
    origins (compact s) = ((origins s).filter fun (n, _) => keepsRow (print s) n).map
      fun (n, p) => (keptNumber (print s) n, p) := by
  have hrows := rowsOf_print h.isRow
  rw [origins, h.lines_compact]
  refine filterMap_origins (fun row => isCodeRow (trimRow row)) (rowsOf (print s)) [] s.lines ?_ ?_
  · rw [hrows, List.nil_append, List.take_append_of_le_length (by simp)]
    exact List.take_of_length_le (by simp)
  · intro l hl
    rw [Line.isCode, Line.trimRow_row (h.isRow l hl)]

/-! ## Line after line -/

/-- Where on its line a script goes on. -/
inductive Spot where
  /-- At the start of a line. -/
  | fresh
  /-- Behind the first text of a line. -/
  | inside
  deriving DecidableEq, Repr

/-- Whether characters stay on their line. -/
def areInline (cs : List Char) : Bool := !cs.isEmpty && !cs.contains '\n'

/-- Whether a text stays on its line. -/
def isInline (t : String) : Bool := areInline t.toList

/-- Whether a line that starts with characters shows code, whatever follows. -/
def openLine (cs : List Char) : Bool :=
  areInline cs && cs.head? != some ' ' && cs.head? != some '/'

/-- Whether a line that starts with a text shows code, whatever follows. -/
def opensLine (t : String) : Bool := openLine t.toList

-- A fixed text is the text of its characters by definition, and these need not be decoded.

theorem lineFeed_not_mem_ofList {cs : List Char} (h : '\n' ∉ cs) :
    '\n' ∉ (String.ofList cs).toList := by
  rwa [String.toList_ofList]

theorem opensLine_ofList {cs : List Char} (h : openLine cs = true) :
    opensLine (String.ofList cs) = true := by
  rw [opensLine, String.toList_ofList, h]

/-- Where a script goes on after a text, unless the text is out of place. -/
def nextAfterText (t : String) : Spot → Option Spot
  | .fresh => if opensLine t then some .inside else none
  | .inside => if isInline t then some .inside else none

/-- Where a script goes on after an item, unless the item is out of place. -/
def Content.next : Content → Spot → Option Spot
  | .code t, a | .use _ t, a | .bind t _, a => nextAfterText t a
  | .enter, a | .leave, a => some a
  | .lineEnd, .inside => some .fresh
  | .comment t, .fresh =>
    if isInline t && ['/', '/'].isPrefixOf t.toList then some .fresh else none
  | .lineEnd, .fresh | .comment _, .inside | .blankLine, _ => none

/-- From one spot the script leads to another, and every item is in place. -/
def Leads (a : Spot) (s : Script) (b : Spot) : Prop :=
  s.foldlM (fun a i => i.content.next a) a = some b

instance (a : Spot) (s : Script) (b : Spot) : Decidable (Leads a s b) :=
  inferInstanceAs (Decidable (_ = _))

theorem leads_nil {a b : Spot} : Leads a [] b ↔ a = b := Option.some_inj

theorem leads_cons {i : Item} {s : Script} {a b : Spot} :
    Leads a (i :: s) b ↔ ∃ m, i.content.next a = some m ∧ Leads m s b := by
  rw [Leads, List.foldlM_cons]
  exact Option.bind_eq_some_iff

theorem leads_singleton {i : Item} {a b : Spot} : Leads a [i] b ↔ i.content.next a = some b := by
  rw [leads_cons]
  simp [leads_nil]

theorem Leads.append {s t : Script} {a b c : Spot} (hs : Leads a s b) (ht : Leads b t c) :
    Leads a (s ++ t) c := by
  rw [Leads, List.foldlM_append, hs]
  exact ht

/-- Neither the indentation nor the origins of items matter. -/
theorem leads_map {f : Item → Item} (hf : ∀ i, (f i).content = i.content) {s : Script}
    {a b : Spot} : Leads a (s.map f) b ↔ Leads a s b := by
  simp only [Leads, List.foldlM_map, hf]

/-- The unfinished line of a script at a spot. -/
def Spot.Holds : Spot → Option Line → Prop
  | .fresh, current => current = none
  | .inside, current => ∃ l, current = some l ∧ opensLine l.text = true

theorem isInline_iff {t : String} : isInline t = true ↔ t ≠ "" ∧ '\n' ∉ t.toList := by
  simp [isInline, areInline]

theorem opensLine_iff {t : String} : opensLine t = true ↔
    isInline t = true ∧ t.toList.head? ≠ some ' ' ∧ t.toList.head? ≠ some '/' := by
  simp [opensLine, openLine, isInline, and_assoc]

/-- A text goes on from the text that starts the line. -/
theorem opensLine_append {t u : String} (ht : opensLine t = true) (hu : '\n' ∉ u.toList) :
    opensLine (t ++ u) = true := by
  obtain ⟨hinline, hblank, hslash⟩ := opensLine_iff.1 ht
  obtain ⟨hne, hbreak⟩ := isInline_iff.1 hinline
  obtain ⟨c, cs, hcs⟩ : ∃ c cs, t.toList = c :: cs :=
    List.exists_cons_of_ne_nil (by simpa using hne)
  rw [hcs] at hblank hslash hbreak
  refine opensLine_iff.2 ⟨isInline_iff.2 ⟨?_, ?_⟩, ?_⟩
  · rw [ne_eq, String.append_eq_empty_iff]
    exact fun h => hne h.1
  · rw [String.toList_append, hcs, List.mem_append]
    exact fun h => h.elim hbreak hu
  · rw [String.toList_append, hcs]
    exact ⟨hblank, hslash⟩

/-- What comes of an item: the lines it ends, and the line it leaves unfinished. -/
structure Advance (s : Script) (current : Option Line) (ls : List Line) (current' : Option Line) :
    Prop where
  lines : ∀ t, linesFrom current (s ++ t) = ls ++ linesFrom current' t
  compact : ∀ t, linesFrom (current.map Line.flush) (compact s ++ t) =
    (ls.filter Line.isCode).map Line.flush ++ linesFrom (current'.map Line.flush) t
  isRow : ∀ l ∈ ls, l.IsRow ∧ l.text ≠ ""

theorem Advance.append {s t : Script} {c d e : Option Line} {ls ms : List Line}
    (hs : Advance s c ls d) (ht : Advance t d ms e) : Advance (s ++ t) c (ls ++ ms) e := by
  refine ⟨fun u => ?_, fun u => ?_, List.forall_mem_append.2 ⟨hs.isRow, ht.isRow⟩⟩
  · rw [List.append_assoc, hs.lines, ht.lines, List.append_assoc]
  · rw [compact_append, List.append_assoc, hs.compact, ht.compact, List.filter_append,
      List.map_append, List.append_assoc]

/-- A text starts a line or goes on with one. -/
theorem exists_advance_text {i : Item} {a b : Spot} {current : Option Line}
    (hends : i.endsLine = false) (hlayout : i.isLayout = false)
    (h : nextAfterText i.content.text a = some b) (hc : a.Holds current) :
    ∃ current', Advance [i] current [] current' ∧ b.Holds current' := by
  have advance (hne : i.content.text ≠ "") : Advance [i] current [] (i.writeOn current) := by
    have hflush : (i.writeOn current).map Line.flush =
        Item.writeOn { i with indent := 0 } (current.map Line.flush) := by
      cases current <;> simp [Item.writeOn, hne, Line.flush]
    have hends' : Item.endsLine { i with indent := 0 } = false := hends
    refine ⟨fun t => ?_, fun t => ?_, List.forall_mem_nil _⟩
    · rw [List.singleton_append, linesFrom, if_neg (by simp [hends])]
      rfl
    · have hcompact : Script.compact [i] = [{ i with indent := 0 }] := by
        simp [Script.compact, hlayout]
      rw [hcompact, List.singleton_append, linesFrom, if_neg (by simp [hends']), hflush]
      rfl
  cases a with
  | fresh =>
    obtain rfl : current = none := hc
    obtain ⟨hopens, hb⟩ := Option.ite_none_right_eq_some.1 h
    obtain rfl : Spot.inside = b := Option.some.inj hb
    have hne := (isInline_iff.1 (opensLine_iff.1 hopens).1).1
    refine ⟨_, advance hne, ⟨i.indent, i.origin, i.content.text⟩, ?_, hopens⟩
    simp [Item.writeOn, hne]
  | inside =>
    obtain ⟨l, rfl, hl⟩ := hc
    obtain ⟨hinline, hb⟩ := Option.ite_none_right_eq_some.1 h
    obtain rfl : Spot.inside = b := Option.some.inj hb
    obtain ⟨hne, hbreak⟩ := isInline_iff.1 hinline
    refine ⟨_, advance hne, { l with text := l.text ++ i.content.text }, ?_,
      opensLine_append hl hbreak⟩
    simp [Item.writeOn, hne]

/-- A line that its first text shows to be code. -/
theorem isCode_of_opensLine {l : Line} (h : opensLine l.text = true) :
    l.isCode = true ∧ l.IsRow ∧ l.text ≠ "" := by
  obtain ⟨hinline, hblank, hslash⟩ := opensLine_iff.1 h
  obtain ⟨hne, hbreak⟩ := isInline_iff.1 hinline
  refine ⟨?_, ⟨hbreak, hblank⟩, hne⟩
  obtain ⟨c, cs, hcs⟩ : ∃ c cs, l.text.toList = c :: cs :=
    List.exists_cons_of_ne_nil (by simpa using hne)
  rw [hcs, List.head?_cons, ne_eq, Option.some.injEq] at hslash
  have hprefix : ['/', '/'].isPrefixOf (c :: cs) = false := by
    rw [List.isPrefixOf_cons_cons, beq_eq_false_iff_ne.2 (Ne.symm hslash), Bool.false_and]
  rw [Line.isCode, isCodeRow, hcs, hprefix]
  rfl

/-- A comment on a line of its own. -/
theorem advance_comment {t : String} (hinline : isInline t = true)
    (hslashes : ['/', '/'].isPrefixOf t.toList = true) (indent : Nat) (origin : Option Position) :
    Advance [⟨.comment t, indent, origin⟩] none [⟨indent, origin, t⟩] none := by
  obtain ⟨hne, hbreak⟩ := isInline_iff.1 hinline
  have hcode : Line.isCode ⟨indent, origin, t⟩ = false := by
    simp [Line.isCode, isCodeRow, hslashes]
  have hhead : t.toList.head? ≠ some ' ' := by
    obtain ⟨rest, hrest⟩ := List.isPrefixOf_iff_prefix.1 hslashes
    rw [← hrest]
    simp
  refine ⟨fun u => ?_, fun u => ?_, List.forall_mem_singleton.2 ⟨⟨hbreak, hhead⟩, hne⟩⟩
  · simp [linesFrom, Item.endsLine, Item.writeOn, Content.text, hne]
  · rw [List.filter_cons_of_neg (by simp [hcode])]
    rfl

/-- One item in place keeps the unfinished line as its spot says. -/
theorem exists_advance_item {i : Item} {a b : Spot} {current : Option Line}
    (h : i.content.next a = some b) (hc : a.Holds current) :
    ∃ ls current', Advance [i] current ls current' ∧ b.Holds current' := by
  obtain ⟨content, indent, origin⟩ := i
  cases content with
  | code t | use n t | bind t owner => exact ⟨[], exists_advance_text rfl rfl h hc⟩
  | enter | leave =>
    obtain rfl : a = b := Option.some.inj h
    exact ⟨[], current, ⟨fun _ => rfl, fun _ => rfl, List.forall_mem_nil _⟩, hc⟩
  | blankLine => cases h
  | lineEnd =>
    cases a with
    | fresh => cases h
    | inside =>
      obtain rfl : Spot.fresh = b := Option.some.inj h
      obtain ⟨l, rfl, hl⟩ := hc
      obtain ⟨hcode, hrow⟩ := isCode_of_opensLine hl
      refine ⟨[l], none, ⟨fun t => rfl, fun t => ?_, List.forall_mem_singleton.2 hrow⟩, rfl⟩
      rw [List.filter_cons_of_pos hcode]
      rfl
  | comment t =>
    cases a with
    | inside => cases h
    | fresh =>
      obtain ⟨htext, hb⟩ := Option.ite_none_right_eq_some.1 h
      obtain rfl : Spot.fresh = b := Option.some.inj hb
      obtain rfl : current = none := hc
      obtain ⟨hinline, hslashes⟩ := Bool.and_eq_true_iff.1 htext
      exact ⟨_, none, advance_comment hinline hslashes indent origin, rfl⟩

/-- A script that leads from one spot to another. -/
theorem Leads.exists_advance {s : Script} {a b : Spot} {current : Option Line} (h : Leads a s b)
    (hc : a.Holds current) : ∃ ls current', Advance s current ls current' ∧ b.Holds current' := by
  induction s generalizing a current with
  | nil =>
    obtain rfl := leads_nil.1 h
    exact ⟨[], current, ⟨fun _ => rfl, fun _ => rfl, List.forall_mem_nil _⟩, hc⟩
  | cons i s ih =>
    obtain ⟨m, hm, hs⟩ := leads_cons.1 h
    obtain ⟨ls, d, hitem, hd⟩ := exists_advance_item hm hc
    obtain ⟨ms, e, hrest, he⟩ := ih hs hd
    exact ⟨ls ++ ms, e, hitem.append hrest, he⟩

/-- A script of whole lines is tidy, and none of its lines is blank. -/
theorem Leads.tidy {s : Script} (h : Leads .fresh s .fresh) :
    Tidy s ∧ ∀ l ∈ s.lines, l.text ≠ "" := by
  obtain ⟨ls, current, hadvance, hc⟩ := h.exists_advance (show Spot.fresh.Holds none from rfl)
  obtain rfl : current = none := hc
  have hlines : lines s = ls := by
    have hnil := hadvance.lines []
    rwa [List.append_nil, show linesFrom none [] = [] from rfl, List.append_nil] at hnil
  refine ⟨⟨fun t => ?_, fun t => ?_, fun l hl => ?_⟩, fun l hl => ?_⟩
  · rw [hlines]
    exact hadvance.lines t
  · rw [hlines]
    exact hadvance.compact t
  · exact (hadvance.isRow l (hlines ▸ hl)).1
  · exact (hadvance.isRow l (hlines ▸ hl)).2

end Easel.Script
