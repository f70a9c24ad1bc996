import Easel.Layout
import Easel.Proofs.Token.Found
import Mathlib.Data.List.Forall2

/-!
# Layout by lexemes

The canonical layout of a source depends on its lexemes only, not on where they stand: `layOut`
gives the lexemes of the formatted text line by line, and `format_eq_ok_iff` says that formatting
gives their text.  Two neighbouring tokens stood apart if a blank is between them.
-/

namespace Easel.Layout

open Token (Kind Lexeme textOf)

/-! ## Lines -/

section Lines

variable {α : Type} {p : α → Bool}

/-- Every list is a last line, or a line with what follows its end. -/
theorem lines_induction {motive : List α → Prop} (last : ∀ A, (∀ x ∈ A, p x = false) → motive A)
    (more : ∀ A x B, (∀ y ∈ A, p y = false) → p x = true → motive B → motive (A ++ x :: B)) :
    ∀ xs, motive xs := by
  have hsplit : ∀ xs : List α, (∀ x ∈ xs, p x = false) ∨
      ∃ A x B, xs = A ++ x :: B ∧ (∀ y ∈ A, p y = false) ∧ p x = true := by
    intro xs
    induction xs with
    | nil => exact .inl (by simp)
    | cons x xs ih =>
      cases hx : p x with
      | true => exact .inr ⟨[], x, xs, rfl, by simp, hx⟩
      | false =>
        rcases ih with hall | ⟨A, y, B, rfl, hA, hy⟩
        · exact .inl (List.forall_mem_cons.2 ⟨hx, hall⟩)
        · exact .inr ⟨x :: A, y, B, rfl, List.forall_mem_cons.2 ⟨hx, hA⟩, hy⟩
  intro xs
  induction hn : xs.length using Nat.strong_induction_on generalizing xs with
  | _ n ih =>
    rcases hsplit xs with hall | ⟨A, x, B, rfl, hA, hx⟩
    · exact last xs hall
    · exact more A x B hA hx (ih B.length (by simp at hn; omega) B rfl)

end Lines

/-- Whether a lexeme is a line end. -/
def isLineEnd (l : Lexeme) : Bool := l.kind == some .newline

/-- The lexemes of each line. -/
def lexemeLines (ls : List Lexeme) : List (List Lexeme) := ls.splitOnP isLineEnd

/-! ## One line -/

/-- As `apart`, where it is known whether a blank stands between the two tokens. -/
def apartBy (first second : Kind) (spaced : Bool) : Bool :=
  if first = .comma then true
  else match first with
    | .lparen | .lbracket | .dot => false
    | _ =>
      match second with
      | .comma | .semicolon | .dot | .rparen | .rbracket => false
      | .lbrace | .comment => true
      | _ => spaced

theorem apart_eq (first second : Token) :
    apart first second = apartBy first.kind second.kind (first.stop < second.offset) := rfl

/-- The blank between two tokens that stand apart. -/
def space : Lexeme := ⟨none, [' ']⟩

/-- The lexemes that follow a token on its line in canonical layout. -/
def tailOf (before : Kind) (spaced : Bool) : List Lexeme → List Lexeme
  | [] => []
  | l :: ls =>
    match l.kind with
    | none => tailOf before true ls
    | some kind =>
      (if apartBy before kind spaced then [space] else []) ++ l :: tailOf kind false ls

theorem tailOf_none (before : Kind) (spaced : Bool) (text : List Char) (ls : List Lexeme) :
    tailOf before spaced (⟨none, text⟩ :: ls) = tailOf before true ls := rfl

theorem tailOf_some (before : Kind) (spaced : Bool) (kind : Kind) (text : List Char)
    (ls : List Lexeme) : tailOf before spaced (⟨some kind, text⟩ :: ls) =
      (if apartBy before kind spaced then [space] else []) ++
        ⟨some kind, text⟩ :: tailOf kind false ls := rfl

/-- The lexemes of a line in canonical layout, without its indentation. -/
def lineOf : List Lexeme → List Lexeme
  | [] => []
  | l :: ls =>
    match l.kind with
    | none => lineOf ls
    | some kind => l :: tailOf kind false ls

/-- The kinds of the tokens of a line. -/
def kindsOf (line : List Lexeme) : List Kind := line.filterMap Lexeme.kind

/-- The number of open brackets after a token of a given kind. -/
def depthBy (depth : Nat) (kind : Kind) : Nat :=
  if opens kind then depth + 1 else if closes kind then depth - 1 else depth

/-- The tokens of consecutive lexemes from a place on. -/
def placed : Cursor → List Lexeme → List Token
  | _, [] => []
  | k, l :: rest =>
    match l.kind with
    | some kind => ⟨kind, String.ofList l.text, k.position, k.offset⟩ :: placed (k.advance l.text) rest
    | none => placed (k.advance l.text) rest

theorem offset_advance (k : Cursor) (cs : List Char) : (k.advance cs).offset = k.offset + cs.length := by
  induction cs generalizing k with
  | nil => rfl
  | cons c cs ih =>
    have hstep : (k.step c).offset = k.offset + 1 := by
      unfold Cursor.step
      split_ifs <;> rfl
    show ((k.step c).advance cs).offset = _
    rw [ih, hstep, List.length_cons]
    omega

theorem map_kind_placed (k : Cursor) (ls : List Lexeme) : (placed k ls).map Token.kind = kindsOf ls := by
  induction ls generalizing k with
  | nil => rfl
  | cons l ls ih =>
    rw [placed, kindsOf, List.filterMap_cons]
    cases l.kind with
    | none => exact ih _
    | some kind => exact congrArg (kind :: ·) (ih _)

/-- A blank between two tokens is what lies between the end of one and the start of the other. -/
theorem joinTokens_placed {ls : List Lexeme} (hls : ∀ l ∈ ls, l.text ≠ []) {t : Token} {k : Cursor}
    (hk : t.stop ≤ k.offset) :
    joinTokens t (placed k ls) = textOf (tailOf t.kind (t.stop < k.offset) ls) := by
  induction ls generalizing t k with
  | nil => rfl
  | cons l ls ih =>
    obtain ⟨hl, hls⟩ := List.forall_mem_cons.1 hls
    have hlen := List.length_pos_of_ne_nil hl
    have hoffset := offset_advance k l.text
    rw [placed, tailOf]
    cases hkind : l.kind with
    | none =>
      rw [ih hls (by omega)]
      simp only [show t.stop < (k.advance l.text).offset by omega, decide_true]
    | some kind =>
      let t' : Token := ⟨kind, String.ofList l.text, k.position, k.offset⟩
      have hstop : t'.stop = (k.advance l.text).offset := by
        rw [hoffset, Token.stop, String.length_ofList]
      have hrest := ih hls hstop.le
      simp only [hstop, lt_self_iff_false, decide_false] at hrest
      show _ ++ t'.text.toList ++ joinTokens t' _ = _
      rw [hrest, apart_eq, Token.textOf_append, Token.textOf_cons, String.toList_ofList,
        List.append_assoc]
      congr 1
      split_ifs <;> rfl

theorem lineText_placed {ls : List Lexeme} (hls : ∀ l ∈ ls, l.text ≠ []) (k : Cursor) :
    lineText (placed k ls) = textOf (lineOf ls) := by
  induction ls generalizing k with
  | nil => rfl
  | cons l ls ih =>
    obtain ⟨-, hls⟩ := List.forall_mem_cons.1 hls
    rw [placed, lineOf]
    cases hkind : l.kind with
    | none => exact ih hls _
    | some kind =>
      let t : Token := ⟨kind, String.ofList l.text, k.position, k.offset⟩
      have hstop : t.stop = (k.advance l.text).offset := by
        rw [offset_advance, Token.stop, String.length_ofList]
      have hrest := joinTokens_placed hls hstop.le
      simp only [hstop, lt_self_iff_false, decide_false] at hrest
      show t.text.toList ++ joinTokens t _ = _
      rw [hrest, Token.textOf_cons, String.toList_ofList]

theorem placed_eq_nil_iff {k : Cursor} {ls : List Lexeme} : placed k ls = [] ↔ lineOf ls = [] := by
  induction ls generalizing k with
  | nil => exact ⟨fun _ => rfl, fun _ => rfl⟩
  | cons l ls ih =>
    rw [placed, lineOf]
    cases l.kind with
    | none => exact ih
    | some kind => simp

/-! ## All lines -/

/-- The line end. -/
def lineEnd : Lexeme := ⟨some .newline, ['\n']⟩

/-- The blanks before a line at some depth. -/
def indent (depth : Nat) : List Lexeme :=
  if depth = 0 then [] else [⟨none, List.replicate (2 * depth) ' '⟩]

theorem textOf_indent (depth : Nat) : textOf (indent depth) = List.replicate (2 * depth) ' ' := by
  unfold indent
  split_ifs with h
  · subst h
    rfl
  · simp

/-- The depth of a line: the brackets that close at its start are taken off. -/
def depthAt (depth : Nat) (line : List Lexeme) : Nat :=
  depth - ((kindsOf line).takeWhile closes).length

/-- The lexemes of lines in canonical layout, where `set` sets a single line. -/
def layOut (set : List Lexeme → List Lexeme) (depth : Nat) (started gap : Bool) :
    List (List Lexeme) → List Lexeme
  | [] => []
  | line :: rest =>
    match set line with
    | [] => layOut set depth started started rest
    | l :: ls =>
      (if gap then [lineEnd] else []) ++ indent (depthAt depth line) ++ (l :: ls) ++
        lineEnd :: layOut set ((kindsOf line).foldl depthBy depth) true false rest

theorem indentation_placed (depth : Nat) (k : Cursor) (ls : List Lexeme) :
    indentation depth (placed k ls) = depthAt depth ls := by
  rw [indentation, depthAt, ← map_kind_placed k, List.takeWhile_map, List.length_map]
  rfl

theorem foldl_depthAfter_placed (depth : Nat) (k : Cursor) (ls : List Lexeme) :
    (placed k ls).foldl depthAfter depth = (kindsOf ls).foldl depthBy depth := by
  rw [← map_kind_placed k, List.foldl_map]
  rfl

/-- Lines are arranged as their lexemes are laid out. -/
theorem arrange_eq_layOut {toks : List (List Token)} {lines : List (List Lexeme)}
    (h : List.Forall₂ (fun ts ls => ∃ k, ts = placed k ls) toks lines)
    (hlines : ∀ line ∈ lines, ∀ l ∈ line, l.text ≠ []) (depth : Nat) (started gap : Bool) :
    arrange depth started gap toks = textOf (layOut lineOf depth started gap lines) := by
  induction h generalizing depth started gap with
  | nil => rfl
  | @cons ts line toks lines hk _ ih =>
    obtain ⟨k, rfl⟩ := hk
    obtain ⟨hline, hlines⟩ := List.forall_mem_cons.1 hlines
    rw [layOut]
    cases hset : lineOf line with
    | nil =>
      rw [placed_eq_nil_iff.2 hset, arrange]
      exact ih hlines _ _ _
    | cons l ls =>
      have hne : placed k line ≠ [] := fun h => by
        rw [placed_eq_nil_iff.1 h] at hset
        cases hset
      obtain ⟨t, ts, hts⟩ := List.exists_cons_of_ne_nil hne
      have htext := lineText_placed hline k
      have hindent := indentation_placed depth k line
      have hdepth := foldl_depthAfter_placed depth k line
      rw [hts] at htext hindent hdepth
      rw [hts, arrange, htext, hindent, hdepth, hset, ih hlines]
      · simp only [Token.textOf_append, Token.textOf_cons, textOf_indent, List.append_assoc]
        congr 1
        split_ifs <;> rfl
      · exact List.cons_ne_nil t ts

/-! ## The whole text -/

theorem place_eq (k : Cursor) (ls : List Lexeme) :
    Token.place k ls = placed k ls ++
      [⟨.eof, "", (k.advance (textOf ls)).position, (k.advance (textOf ls)).offset⟩] := by
  induction ls generalizing k with
  | nil => rfl
  | cons l ls ih =>
    have hadvance : k.advance (textOf (l :: ls)) = (k.advance l.text).advance (textOf ls) :=
      List.foldl_append
    rw [Token.place, placed, hadvance]
    cases l.kind with
    | none => exact ih _
    | some kind => exact congrArg (_ :: ·) (ih _)

theorem placed_append (k : Cursor) (ls ls' : List Lexeme) :
    placed k (ls ++ ls') = placed k ls ++ placed (k.advance (textOf ls)) ls' := by
  induction ls generalizing k with
  | nil => rfl
  | cons l ls ih =>
    have hadvance : k.advance (textOf (l :: ls)) = (k.advance l.text).advance (textOf ls) :=
      List.foldl_append
    rw [List.cons_append, placed, placed, hadvance]
    cases l.kind with
    | none => exact ih _
    | some kind => exact congrArg (_ :: ·) (ih _)

theorem exists_of_mem_placed {k : Cursor} {ls : List Lexeme} {t : Token} (h : t ∈ placed k ls) :
    ∃ l ∈ ls, l.kind = some t.kind ∧ l.text = t.text.toList := by
  induction ls generalizing k with
  | nil => cases h
  | cons l ls ih =>
    obtain ⟨_ | kind, text⟩ := l
    · obtain ⟨l, hl, hkind⟩ := ih h
      exact ⟨l, List.mem_cons_of_mem _ hl, hkind⟩
    · rcases List.mem_cons.1 h with rfl | h
      · exact ⟨_, List.mem_cons_self, rfl, String.toList_ofList.symm⟩
      · obtain ⟨l, hl, hkind⟩ := ih h
        exact ⟨l, List.mem_cons_of_mem _ hl, hkind⟩

/-- The lines of tokens are those of the lexemes. -/
theorem splitOnP_placed (k : Cursor) (ls : List Lexeme) :
    List.Forall₂ (fun ts line => ∃ k, ts = placed k line)
      ((placed k ls).splitOnP (fun t => t.kind == .newline)) (lexemeLines ls) := by
  have noLineEnd {k : Cursor} {A : List Lexeme} (hA : ∀ l ∈ A, isLineEnd l = false) :
      ∀ t ∈ placed k A, (t.kind == .newline) = false := by
    intro t ht
    obtain ⟨l, hl, hkind, -⟩ := exists_of_mem_placed ht
    simpa [isLineEnd, hkind] using hA l hl
  unfold lexemeLines
  induction ls using lines_induction (p := isLineEnd) generalizing k with
  | last A hA =>
    rw [List.splitOnP_eq_singleton hA, List.splitOnP_eq_singleton (noLineEnd hA)]
    exact .cons ⟨k, rfl⟩ .nil
  | more A l B hA hl ih =>
    have hkind : l.kind = some .newline := by simpa [isLineEnd] using hl
    rw [List.splitOnP_append_cons_of_forall_mem hA _ hl, placed_append, placed]
    simp only [hkind]
    rw [List.splitOnP_append_cons_of_forall_mem (noLineEnd hA) _ rfl]
    exact .cons ⟨k, rfl⟩ (ih _)

theorem lexWithComments_eq (source : String) : ∃ eof : Token, eof.kind = .eof ∧ eof.text = "" ∧
    Token.lexWithComments source = placed .start (Token.lexemes source.toList) ++ [eof] :=
  ⟨_, rfl, rfl, place_eq _ _⟩

/-- A text can be formatted if it has no unknown lexeme. -/
theorem find?_unknown_eq_none_iff (source : String) :
    (Token.lexWithComments source).find? (fun t => t.kind == .unknown) = none ↔
      ∀ l ∈ Token.lexemes source.toList, l.kind ≠ some .unknown := by
  obtain ⟨eof, heof, -, hlex⟩ := lexWithComments_eq source
  have hkinds := map_kind_placed .start (Token.lexemes source.toList)
  rw [List.find?_eq_none, hlex]
  constructor
  · intro h l hl hkind
    have hmem : Kind.unknown ∈ (placed .start (Token.lexemes source.toList)).map Token.kind :=
      hkinds ▸ List.mem_filterMap.2 ⟨l, hl, hkind⟩
    obtain ⟨t, ht, htk⟩ := List.mem_map.1 hmem
    exact h t (List.mem_append_left _ ht) (by simp [htk])
  · intro h t ht
    rcases List.mem_append.1 ht with ht | ht
    · obtain ⟨l, hl, hkind, -⟩ := exists_of_mem_placed ht
      simpa [hkind] using h l hl
    · simp [List.mem_singleton.1 ht, heof]

/-- The lexemes of a source in canonical layout. -/
def formatted (ls : List Lexeme) : List Lexeme := layOut lineOf 0 false false (lexemeLines ls)

theorem mem_of_mem_lexemeLines {ls line : List Lexeme} (h : line ∈ lexemeLines ls) {l : Lexeme}
    (hl : l ∈ line) : l ∈ ls ∧ isLineEnd l = false := by
  unfold lexemeLines at h
  induction ls using lines_induction (p := isLineEnd) with
  | last A hA =>
    rw [List.splitOnP_eq_singleton hA, List.mem_singleton] at h
    subst h
    exact ⟨hl, hA l hl⟩
  | more A x B hA hx ih =>
    rw [List.splitOnP_append_cons_of_forall_mem hA _ hx] at h
    rcases List.mem_cons.1 h with rfl | h
    · exact ⟨List.mem_append_left _ hl, hA l hl⟩
    · exact ⟨List.mem_append_right _ (List.mem_cons_of_mem _ (ih h).1), (ih h).2⟩

/-- The lines of a source are those of its lexemes. -/
theorem tokenLines_lexWithComments (source : String) :
    tokenLines (Token.lexWithComments source) =
      (placed .start (Token.lexemes source.toList)).splitOnP (fun t => t.kind == .newline) := by
  obtain ⟨eof, heof, -, hlex⟩ := lexWithComments_eq source
  rw [tokenLines, hlex, List.filter_append, List.filter_eq_self.2, List.filter_cons_of_neg,
    List.filter_nil, List.append_nil]
  · simp [heof]
  · intro t ht
    obtain ⟨l, hl, hkind, -⟩ := exists_of_mem_placed ht
    have hne := Token.kind_ne_eof hl
    rw [hkind] at hne
    simpa using hne

theorem format_of_known {source : String}
    (h : ∀ l ∈ Token.lexemes source.toList, l.kind ≠ some .unknown) :
    format source = .ok (String.ofList (textOf (formatted (Token.lexemes source.toList)))) := by
  have hread := Token.readable_lexemes h
  have htext : ∀ line ∈ lexemeLines (Token.lexemes source.toList), ∀ l ∈ line, l.text ≠ [] := by
    intro line hline l hl
    obtain ⟨rest, hfound⟩ := hread.exists_found (mem_of_mem_lexemeLines hline hl).1
    exact hfound.text_ne_nil
  rw [format, (find?_unknown_eq_none_iff source).2 h, tokenLines_lexWithComments,
    arrange_eq_layOut (splitOnP_placed _ _) htext]
  rfl

/-- Formatting succeeds on texts without unknown lexemes and gives the text of the lexemes in
canonical layout. -/
theorem format_eq_ok_iff {source out : String} : format source = .ok out ↔
    (∀ l ∈ Token.lexemes source.toList, l.kind ≠ some .unknown) ∧
      out.toList = textOf (formatted (Token.lexemes source.toList)) := by
  constructor
  · intro h
    have hknown : ∀ l ∈ Token.lexemes source.toList, l.kind ≠ some .unknown := by
      rw [← find?_unknown_eq_none_iff]
      rw [format] at h
      split at h
      · cases h
      · assumption
    rw [format_of_known hknown] at h
    refine ⟨hknown, ?_⟩
    rw [← Except.ok.inj h, String.toList_ofList]
  · rintro ⟨hknown, hout⟩
    rw [format_of_known hknown, ← hout, String.ofList_toList]

end Easel.Layout
