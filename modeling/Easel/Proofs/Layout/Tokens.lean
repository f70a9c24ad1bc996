import Easel.Proofs.Layout.Idempotence

/-!
# Formatting and the tokens of a text

Formatting moves tokens and leaves their characters alone.  Where it takes the blanks around a point
away, a number may grow together with the digits behind the point: `1 .5` becomes `1.5`.  The tokens
of a text are those of its formatted text exactly if no line of it has a number without a fraction,
a point and a number in a row: `format_keeps_tokens_iff`.
-/

namespace Easel.Layout

open Token (Kind Lexeme textOf Readable)

/-- The kinds and texts of tokens, but for line ends and the end of the text. -/
def written (ts : List Token) : List (Kind × String) :=
  (ts.filter fun t => t.kind != .newline && t.kind != .eof).map fun t => (t.kind, t.text)

/-- A number without a fraction, a point and a number stand in a row. -/
def SplitsNumber (ws : List (Kind × String)) : Prop :=
  ∃ a point b : String, [(.number, a), (.dot, point), (.number, b)] <:+: ws ∧ '.' ∉ a.toList

/-! ## Lexemes that are tokens -/

/-- The lexemes that are neither blanks nor line ends. -/
def tokensIn (ls : List Lexeme) : List Lexeme := ls.filter fun l => l.kind.isSome && !isLineEnd l

theorem tokensIn_cons_blank (text : List Char) (ls : List Lexeme) :
    tokensIn (⟨none, text⟩ :: ls) = tokensIn ls := rfl

theorem tokensIn_cons_token {kind : Kind} (h : kind ≠ .newline) (text : List Char)
    (ls : List Lexeme) :
    tokensIn (⟨some kind, text⟩ :: ls) = ⟨some kind, text⟩ :: tokensIn ls :=
  List.filter_cons_of_pos (by simp [isLineEnd, h])

theorem tokensIn_append (ls ls' : List Lexeme) :
    tokensIn (ls ++ ls') = tokensIn ls ++ tokensIn ls' := List.filter_append ..

theorem tokensIn_cons (l : Lexeme) (ls : List Lexeme) :
    tokensIn (l :: ls) = tokensIn [l] ++ tokensIn ls := tokensIn_append [l] ls

theorem tokensIn_lineOf (ls : List Lexeme) : tokensIn (lineOf ls) = tokensIn ls :=
  filter_lineOf (fun _ => rfl) ls

/-- What is laid out has the tokens of its lines. -/
theorem tokensIn_layOut (set : List Lexeme → List Lexeme) (depth : Nat) (started gap : Bool)
    (lines : List (List Lexeme)) :
    tokensIn (layOut set depth started gap lines) =
      lines.flatMap fun line => tokensIn (set line) := by
  have hindent (depth : Nat) : tokensIn (indent depth) = [] := by
    unfold indent
    split_ifs <;> rfl
  have hgap (gap : Bool) : tokensIn (if gap then [lineEnd] else []) = [] := by
    cases gap <;> rfl
  have hend (ls : List Lexeme) : tokensIn (lineEnd :: ls) = tokensIn ls := rfl
  induction lines generalizing depth started gap with
  | nil => rfl
  | cons line lines ih =>
    rw [layOut, List.flatMap_cons]
    cases hset : set line with
    | nil => exact ih _ _ _
    | cons l ls =>
      simp only [tokensIn_append, hindent, hgap, hend, ih, List.nil_append]

theorem flatMap_tokensIn_lexemeLines (ls : List Lexeme) :
    (lexemeLines ls).flatMap tokensIn = tokensIn ls := by
  unfold lexemeLines
  induction ls using lines_induction (p := isLineEnd) with
  | last A hA => rw [List.splitOnP_eq_singleton hA, List.flatMap_singleton]
  | more A x B hA hx ih =>
    have hend : tokensIn (x :: B) = tokensIn B := List.filter_cons_of_neg (by simp [hx])
    rw [List.splitOnP_append_cons_of_forall_mem hA _ hx, List.flatMap_cons, ih, tokensIn_append,
      hend]

/-- A token as the lexeme that it was. -/
def lexemeOf (q : Kind × String) : Lexeme := ⟨some q.1, q.2.toList⟩

theorem lexemeOf_injective : Function.Injective lexemeOf := by
  rintro ⟨kind, text⟩ ⟨kind', text'⟩ h
  obtain ⟨hkind, htext⟩ := Lexeme.mk.inj h
  exact Prod.ext (Option.some.inj hkind) (String.toList_inj.1 htext)

theorem map_written_placed {ls : List Lexeme} (h : ∀ l ∈ ls, l.kind ≠ some .eof) (k : Cursor) :
    (written (placed k ls)).map lexemeOf = tokensIn ls := by
  induction ls generalizing k with
  | nil => rfl
  | cons l ls ih =>
    obtain ⟨hl, hrest⟩ := List.forall_mem_cons.1 h
    obtain ⟨_ | kind, text⟩ := l
    · exact ih hrest _
    have htail := ih hrest (k.advance text)
    by_cases hline : kind = .newline
    · subst hline
      exact htail
    · have hkind : kind ≠ .eof := fun heq => hl (congrArg some heq)
      rw [tokensIn_cons_token hline, ← htail, placed, written,
        List.filter_cons_of_pos (by simp [hline, hkind])]
      simp [written, lexemeOf]

theorem map_written_lexWithComments (source : String) :
    (written (Token.lexWithComments source)).map lexemeOf =
      tokensIn (Token.lexemes source.toList) := by
  obtain ⟨eof, heof, -, hlex⟩ := lexWithComments_eq source
  have hend : written (placed .start (Token.lexemes source.toList) ++ [eof]) =
      written (placed .start (Token.lexemes source.toList)) := by
    simp [written, heof]
  rw [hlex, hend, map_written_placed fun _ hl => Token.kind_ne_eof hl]

theorem map_written_tokenLines (source : String) :
    ((tokenLines (Token.lexWithComments source)).map fun line => (written line).map lexemeOf) =
      (lexemeLines (Token.lexemes source.toList)).map tokensIn := by
  have hlines : ∀ line ∈ lexemeLines (Token.lexemes source.toList), ∀ l ∈ line,
      l.kind ≠ some .eof :=
    fun _ hline _ hl => Token.kind_ne_eof (mem_of_mem_lexemeLines hline hl).1
  have hpairs := (List.forall₂_and_left _ _).2
    ⟨hlines, (splitOnP_placed .start (Token.lexemes source.toList)).flip⟩
  rw [tokenLines_lexWithComments, eq_comm, ← List.forall₂_eq_eq_eq, List.forall₂_map_left_iff,
    List.forall₂_map_right_iff]
  refine hpairs.imp ?_
  rintro line _ ⟨hline, k, rfl⟩
  exact (map_written_placed hline k).symm

/-! ## Numbers that grow together -/

/-- As `SplitsNumber`, for lexemes. -/
def Splits (ls : List Lexeme) : Prop :=
  ∃ a point b, [⟨some .number, a⟩, ⟨some .dot, point⟩, ⟨some .number, b⟩] <:+: ls ∧ '.' ∉ a

theorem splits_map_lexemeOf_iff {ws : List (Kind × String)} :
    Splits (ws.map lexemeOf) ↔ SplitsNumber ws := by
  constructor
  · rintro ⟨a, point, b, hinfix, ha⟩
    have hback := hinfix.map fun l => (l.kind.getD .eof, String.ofList l.text)
    simp only [List.map_map, Function.comp_def, lexemeOf, Option.getD_some, String.ofList_toList,
      List.map_id'] at hback
    exact ⟨.ofList a, .ofList point, .ofList b, hback, by simpa using ha⟩
  · rintro ⟨a, point, b, hinfix, ha⟩
    exact ⟨a.toList, point.toList, b.toList, hinfix.map lexemeOf, ha⟩

theorem splits_cons {l : Lexeme} {ls : List Lexeme} : Splits (l :: ls) ↔
    (∃ a point b rest, l = ⟨some .number, a⟩ ∧
      ls = ⟨some .dot, point⟩ :: ⟨some .number, b⟩ :: rest ∧ '.' ∉ a) ∨ Splits ls := by
  constructor
  · rintro ⟨a, point, b, hinfix, ha⟩
    rcases List.infix_cons_iff.1 hinfix with ⟨rest, hrest⟩ | hinfix
    · obtain ⟨rfl, rfl⟩ := List.cons.inj hrest
      exact .inl ⟨a, point, b, rest, rfl, rfl, ha⟩
    · exact .inr ⟨a, point, b, hinfix, ha⟩
  · rintro (⟨a, point, b, rest, rfl, rfl, ha⟩ | ⟨a, point, b, hinfix, ha⟩)
    · exact ⟨a, point, b, ⟨[], rest, rfl⟩, ha⟩
    · exact ⟨a, point, b, List.infix_cons hinfix, ha⟩

/-- No blank stands around a point in canonical layout, so a number that is split is one without the
blanks as well. -/
theorem splits_of_tokensIn {before : Kind} {text : List Char} {ls : List Lexeme}
    (h : Canonical before ls) (hline : ∀ l ∈ ls, isLineEnd l = false)
    (hsplits : Splits (⟨some before, text⟩ :: tokensIn ls)) :
    Splits (⟨some before, text⟩ :: ls) := by
  induction h generalizing text with
  | nil => exact hsplits
  | @near before kind text' ls hnear hls ih =>
    obtain ⟨hl, hlater⟩ := List.forall_mem_cons.1 hline
    have hkind : kind ≠ .newline := by simpa [isLineEnd] using hl
    rw [tokensIn_cons_token hkind] at hsplits
    rcases splits_cons.1 hsplits with ⟨a, point, b, rest, hfirst, hrest, ha⟩ | hsplits
    · obtain ⟨hdot, hnumber⟩ := List.cons.inj hrest
      cases hdot
      -- a point is directly before the token behind it
      cases hls with
      | nil => cases hnumber
      | @near _ kind _ ls _ _ =>
        have hkind : kind ≠ .newline := by
          simpa [isLineEnd] using (List.forall_mem_cons.1 hlater).1
        rw [tokensIn_cons_token hkind] at hnumber
        cases (List.cons.inj hnumber).1
        exact splits_cons.2 (.inl ⟨a, text', b, ls, hfirst, rfl, ha⟩)
      | apart hapart => cases hapart
    · exact splits_cons.2 (.inr (ih hlater hsplits))
  | @apart before kind text' ls hapart hls ih =>
    obtain ⟨hl, hlater⟩ := List.forall_mem_cons.1 (List.forall_mem_cons.1 hline).2
    have hkind : kind ≠ .newline := by simpa [isLineEnd] using hl
    rw [space, tokensIn_cons_blank, tokensIn_cons_token hkind] at hsplits
    rcases splits_cons.1 hsplits with ⟨a, point, b, rest, hfirst, hrest, -⟩ | hsplits
    · cases hfirst
      cases (List.cons.inj hrest).1
      cases hapart
    · exact splits_cons.2 (.inr (splits_cons.2 (.inr (ih hlater hsplits))))

theorem splits_lineOf_iff {line : List Lexeme} (h : ∀ l ∈ line, isLineEnd l = false) :
    Splits (lineOf line) ↔ Splits (tokensIn line) := by
  rw [← tokensIn_lineOf line]
  constructor
  · rintro ⟨a, point, b, hinfix, ha⟩
    have hfilter : _ <:+: tokensIn (lineOf line) := hinfix.filter _
    exact ⟨a, point, b, hfilter, ha⟩
  · have hline := isLineEnd_lineOf h
    rcases canonicalLine_lineOf line with hnil | ⟨kind, text, rest, heq, hrest⟩
    · rw [hnil]
      exact id
    · rw [heq] at hline ⊢
      obtain ⟨hl, hline⟩ := List.forall_mem_cons.1 hline
      rw [tokensIn_cons_token (by simpa [isLineEnd] using hl)]
      exact splits_of_tokensIn hrest hline

/-- A number that has grown is another token. -/
theorem tokensIn_grown_ne {a point : List Char} (h : point = ['.']) (b : List Char)
    (ls ls' ts ts' : List Lexeme) :
    tokensIn (⟨some .number, a ++ point ++ b⟩ :: ls) ++ ts ≠
      tokensIn (⟨some .number, a⟩ :: ls') ++ ts' := by
  intro heq
  rw [tokensIn_cons_token (by decide), tokensIn_cons_token (by decide)] at heq
  have htext := congrArg (fun l : Lexeme => l.text.length) (List.cons.inj heq).1
  simp [h] at htext

/-- The first number that grows tells the tokens apart, whatever stands behind them. -/
theorem tokensIn_glue_append_iff {ls : List Lexeme} {more : List Char}
    (h : Loose ('\n' :: more) ls) (ts ts' : List Lexeme) :
    tokensIn (glue ls) ++ ts = tokensIn ls ++ ts' ↔ ¬ Splits ls ∧ ts = ts' := by
  fun_induction glue ls with
  | case1 a point b rest ha ih =>
    have hsplits : Splits (⟨some .number, a⟩ :: ⟨some .dot, point⟩ :: ⟨some .number, b⟩ :: rest) ↔
        Splits (⟨some .dot, point⟩ :: ⟨some .number, b⟩ :: rest) := by
      refine splits_cons.trans (or_iff_right ?_)
      rintro ⟨a', -, -, -, heq, -, ha'⟩
      cases heq
      exact ha' ha
    rw [hsplits, ← ih h.tail.2, tokensIn_cons _ (glue _), tokensIn_cons _ (_ :: _ :: rest),
      List.append_assoc, List.append_assoc, List.append_cancel_left_eq]
  | case2 a point b rest ha | case3 a point b rest ha =>
    exact iff_of_false (tokensIn_grown_ne h.tail.2.tail.1.dot _ _ _ _ _) fun hnot =>
      hnot.1 (splits_cons.2 (.inl ⟨a, point, b, rest, rfl, rfl, ha⟩))
  | case4 l rest hpattern ih =>
    have hsplits : Splits (l :: rest) ↔ Splits rest := by
      refine splits_cons.trans (or_iff_right ?_)
      rintro ⟨a, point, b, rest', rfl, rfl, -⟩
      exact hpattern a point b rest' rfl rfl
    rw [hsplits, ← ih h.tail.2, tokensIn_cons _ (glue _), tokensIn_cons _ rest, List.append_assoc,
      List.append_assoc, List.append_cancel_left_eq]
  | case5 =>
    refine (and_iff_right ?_).symm
    rintro ⟨a, point, b, hinfix, -⟩
    simpa using hinfix.length_le

theorem textOf_tokensIn_glue (ls : List Lexeme) :
    textOf (tokensIn (glue ls)) = textOf (tokensIn ls) := by
  fun_induction glue ls with
  | case1 a point b rest ha ih =>
    rw [tokensIn_cons, tokensIn_cons _ (_ :: _ :: rest), Token.textOf_append, ih,
      ← Token.textOf_append]
  | case2 a point b rest ha hb ih =>
    simp [tokensIn_cons_token, ih]
  | case3 a point b rest ha c fraction hb ih =>
    have hsplit := List.takeWhile_append_dropWhile (p := (· != '.')) (l := b)
    rw [hb] at hsplit
    simp only [tokensIn_cons_token (by decide : Kind.number ≠ .newline),
      tokensIn_cons_token (by decide : Kind.dot ≠ .newline), Token.textOf_cons,
      List.append_assoc] at ih ⊢
    rw [ih]
    nth_rewrite 2 [← hsplit]
    simp
  | case4 l rest _ ih =>
    rw [tokensIn_cons, tokensIn_cons _ rest, Token.textOf_append, ih, ← Token.textOf_append]
  | case5 => rfl

/-- The lines keep their tokens as a whole exactly if each line does. -/
theorem flatMap_tokensIn_tidy_iff {lines : List (List Lexeme)}
    (hread : ∀ line ∈ lines, ∃ after, Readable after line)
    (hline : ∀ line ∈ lines, ∀ l ∈ line, isLineEnd l = false) :
    (lines.flatMap fun line => tokensIn (tidy line)) = lines.flatMap tokensIn ↔
      ∀ line ∈ lines, ¬ Splits (tokensIn line) := by
  induction lines with
  | nil => simp
  | cons line lines ih =>
    obtain ⟨⟨after, hafter⟩, hread⟩ := List.forall_mem_cons.1 hread
    obtain ⟨hends, hline⟩ := List.forall_mem_cons.1 hline
    rw [List.flatMap_cons, List.flatMap_cons, List.forall_mem_cons, ← ih hread hline,
      ← splits_lineOf_iff hends, ← tokensIn_lineOf line]
    exact tokensIn_glue_append_iff (loose_lineOf [] hafter hends) _ _

/-! ## The tokens of the formatted text -/

/-- Formatting keeps the characters of the tokens in a row, and it keeps the tokens exactly if no
line has a number without a fraction, a point and a number in a row: there the number takes the
digits behind the point. -/
theorem format_keeps_tokens_iff {source out : String} (h : format source = .ok out) :
    ((written (Token.lexWithComments out)).flatMap fun w => w.2.toList) =
        (written (Token.lexWithComments source)).flatMap (fun w => w.2.toList) ∧
      (written (Token.lexWithComments out) = written (Token.lexWithComments source) ↔
        ∀ line ∈ tokenLines (Token.lexWithComments source), ¬ SplitsNumber (written line)) := by
  have hchars (ws : List (Kind × String)) :
      ws.flatMap (fun w => w.2.toList) = textOf (ws.map lexemeOf) := by
    simp [textOf, List.flatMap_map, lexemeOf]
  have hread := readable_lines (Token.readable_lexemes (format_eq_ok_iff.1 h).1)
  have hout : (written (Token.lexWithComments out)).map lexemeOf =
      (lexemeLines (Token.lexemes source.toList)).flatMap fun line => tokensIn (tidy line) := by
    rw [map_written_lexWithComments, lexemes_of_format h, tokensIn_layOut]
  have hsource : (written (Token.lexWithComments source)).map lexemeOf =
      (lexemeLines (Token.lexemes source.toList)).flatMap tokensIn := by
    rw [map_written_lexWithComments, flatMap_tokensIn_lexemeLines]
  refine ⟨?_, ?_⟩
  · rw [hchars, hchars, hout, hsource]
    simp only [textOf, List.flatMap_assoc]
    refine List.flatMap_congr fun line _ => ?_
    rw [← textOf, ← textOf, tidy, textOf_tokensIn_glue, tokensIn_lineOf]
  · rw [← (List.map_injective_iff.2 lexemeOf_injective).eq_iff, hout, hsource,
      flatMap_tokensIn_tidy_iff hread fun _ hline _ hl => (mem_of_mem_lexemeLines hline hl).2]
    simp only [← splits_map_lexemeOf_iff]
    have hlines := map_written_tokenLines source
    rw [← List.forall_mem_map (f := tokensIn) (P := fun ls => ¬ Splits ls), ← hlines,
      List.forall_mem_map]

/-- A blank before a point is all that keeps a number from the digits behind it. -/
theorem format_keeps_tokens_iff_number :
    format "1 .5" = .ok "1.5\n" ∧
    written (Token.lexWithComments "1.5\n") ≠ written (Token.lexWithComments "1 .5") ∧
    format "x . 5, 1.0 . 5" = .ok "x.5, 1.0.5\n" ∧
    written (Token.lexWithComments "x.5, 1.0.5\n") =
      written (Token.lexWithComments "x . 5, 1.0 . 5") := by
  have h : format "1 .5" = .ok "1.5\n" := by decide +kernel
  have h' : format "x . 5, 1.0 . 5" = .ok "x.5, 1.0.5\n" := by decide +kernel
  have hline : (tokenLines (Token.lexWithComments "1 .5")).map written =
      [[(.number, "1"), (.dot, "."), (.number, "5")]] := by decide +kernel
  have hline' : (tokenLines (Token.lexWithComments "x . 5, 1.0 . 5")).map written =
      [[(.identifier, "x"), (.dot, "."), (.number, "5"), (.comma, ","), (.number, "1.0"),
        (.dot, "."), (.number, "5")]] := by decide +kernel
  refine ⟨h, (format_keeps_tokens_iff h).2.not.2 ?_, h', (format_keeps_tokens_iff h').2.2 ?_⟩
  · rw [← List.forall_mem_map (P := fun ws => ¬ SplitsNumber ws), hline]
    simpa using ⟨"1", ".", "5", List.infix_rfl, by decide⟩
  · rw [← List.forall_mem_map (P := fun ws => ¬ SplitsNumber ws), hline', List.forall_mem_singleton]
    rintro ⟨a, point, b, hinfix, ha⟩
    have htext : a = "1.0" ∧ point = "." ∧ b = "5" := by simpa [List.infix_cons_iff] using hinfix
    rw [htext.1] at ha
    exact ha (by decide)

end Easel.Layout
