import Easel.Compilation
import Easel.Proofs.Layout.Code
import Easel.Proofs.Layout.Idempotence
import Easel.Proofs.Script.Relocate

/-!
# Formatting keeps the meaning

A source that can be read without a fault can be formatted, and the formatted text is read without a
fault as the same program up to positions: `format_preserves`.  Hence both compile alike.

In such a source no token is unknown and no number follows a point (`known_of_parse`), so the
formatted text has the tokens of the source (`lexemes_format`), on the same lines
(`sameLines_format`).
-/

namespace Easel

/-! ## Programs that differ in positions -/

/-- Programs that are the same up to positions have the same script. -/
theorem generate_of_unplaced {p p' : Program} (h : p.unplaced = p'.unplaced) (style : Script.Style) :
    generate style p = generate style p' := by
  rw [← generate_relocate (fun _ => {}) style p, ← generate_relocate (fun _ => {}) style p']
  exact congrArg (generate style) h

/-- Programs that are the same up to positions misuse the same number of names. -/
theorem length_misuses_of_unplaced {p p' : Program} (h : p.unplaced = p'.unplaced) :
    (analyze p).2.length = (analyze p').2.length := by
  have hcount (q : Program) : (analyze q.unplaced).2.length = (analyze q).2.length := by
    rw [Program.unplaced, analyze_relocate, List.length_map]
  rw [← hcount p, h, hcount p']

end Easel

namespace Easel.Layout

open Token (Kind Lexeme textOf Readable)
open Easel.Parser (Passed SameLines peek significant)

/-! ## Sources that are read without a fault -/

/-- Without a fault, all tokens up to the end are passed. -/
theorem passed_of_parse {ts : List Token} (h : (parse ts).2 = []) :
    ∃ rest, rest <:+ ts ∧ Passed rest ts ∧ (peek rest).kind = .eof := by
  have hstep := Parser.readsStmts_statementsWithin (ts.length + 2) false ts trivial
    fun _ _ => trivial
  obtain ⟨b, hb⟩ := Parser.exists_statementList_eq_ok false _ _ ts
  have hends := Parser.endsStatements_rest (Parser.consumes_statement
    (Parser.readsExpr_expressionWithin _) (Parser.consumes_expressionWithin _) _
    (Parser.readsStmts_statementsWithin _ true)) ts.length.lt_succ_self h
  refine ⟨_, hstep.rest_suffix, hstep.passed b hb h, ?_⟩
  by_contra hne
  exact absurd (hends.symm.trans (Parser.endsStatements_false hne)) (by decide)

/-- What is left at the end of a text is passed as well. -/
theorem passed_nil {ts rest : List Token} {eof : Token} (hts : ∀ t ∈ ts, t.kind ≠ .eof)
    (heof : eof.kind = .eof) (hrest : rest <:+ ts ++ [eof]) (h : (peek rest).kind = .eof) :
    Passed [] rest := by
  refine (Parser.passed_significant rest).trans ?_
  cases hs : significant rest with
  | nil => exact .here
  | cons t more =>
    rw [Parser.peek_eq_of_significant hs] at h
    have hmore : t :: more <:+ ts ++ [eof] := hs ▸ (Parser.significant_suffix rest).trans hrest
    rcases List.suffix_concat_iff.1 hmore with hnil | ⟨us, hus, hsuffix⟩
    · cases hnil
    cases us with
    | nil =>
      obtain ⟨rfl, rfl⟩ := List.cons.inj hus
      exact .cons (by simp [h]) (by simp [h]) .here
    | cons u us =>
      obtain ⟨rfl, -⟩ := List.cons.inj hus
      exact absurd h (hts t (hsuffix.mem List.mem_cons_self))

theorem ne_unknown_of_passed {ts : List Token} (h : Passed [] ts) : ∀ t ∈ ts, t.kind ≠ .unknown := by
  induction h with
  | here => exact List.forall_mem_nil _
  | cons hunknown _ _ ih => exact List.forall_mem_cons.2 ⟨hunknown, ih⟩

/-- No number follows a point. -/
theorem not_infix_of_passed {ts : List Token} (h : Passed [] ts) :
    ¬ [Kind.dot, .number] <:+: ts.map Token.kind := by
  induction h with
  | here => simp
  | @cons t ts _ hdot _ ih =>
    rw [List.map_cons, List.infix_cons_iff]
    rintro (hpre | hpair)
    · obtain ⟨ht, hnumber⟩ := List.cons_prefix_cons.1 hpre
      cases ts with
      | nil => simp at hnumber
      | cons u us =>
        have hu : u.kind = .number := (List.cons_prefix_cons.1 hnumber).1.symm
        have hname := hdot ht.symm
        rw [Parser.peek_cons_of_ne (by simp [hu]), hu] at hname
        cases hname
    · exact ih hpair

/-- In a source without a fault no lexeme is unknown, and no number follows a point. -/
theorem known_of_parse {source : String} (h : (parse (Token.lex source)).2 = []) :
    (∀ l ∈ Token.lexemes source.toList, l.kind ≠ some .unknown) ∧
      ¬ [Kind.dot, .number] <:+: kindsOf (Token.lexemes source.toList) := by
  obtain ⟨eof, heof, -, hlex⟩ := lex_eq source
  obtain ⟨rest, hsuffix, hpassed, hend⟩ := passed_of_parse h
  have hkinds := map_kind_codePlaced .start (Token.lexemes source.toList)
  have hnone : ∀ t ∈ codePlaced .start (Token.lexemes source.toList), t.kind ≠ .eof := by
    intro t ht heof
    obtain ⟨l, hl, hkind, -⟩ := exists_of_mem_placed (List.mem_filter.1 ht).1
    exact Token.kind_ne_eof hl (heof ▸ hkind)
  rw [hlex] at hsuffix hpassed
  have hall := hpassed.trans (passed_nil hnone heof hsuffix hend)
  constructor
  · intro l hl hunknown
    have hmem : Kind.unknown ∈ (codePlaced .start (Token.lexemes source.toList)).map Token.kind := by
      rw [hkinds]
      exact List.mem_filter.2 ⟨List.mem_filterMap.2 ⟨l, hl, hunknown⟩, rfl⟩
    obtain ⟨t, ht, hkind⟩ := List.mem_map.1 hmem
    exact ne_unknown_of_passed hall t (List.mem_append_left _ ht) hkind
  · rintro ⟨A, B, hAB⟩
    refine not_infix_of_passed hall ?_
    rw [List.map_append, hkinds, ← hAB, List.filter_append, List.filter_append]
    exact ⟨A.filter (· != .comment), B.filter (· != .comment) ++ [eof.kind], by simp⟩

/-! ## The formatted text -/

theorem glue_of_not_infix {ls : List Lexeme} (h : ¬ [Kind.dot, .number] <:+: kindsOf ls) :
    glue ls = ls := by
  fun_induction glue ls with
  | case1 a point b rest | case2 a point b rest | case3 a point b rest =>
    exact absurd ⟨[.number], kindsOf rest, rfl⟩ h
  | case4 l rest _ ih =>
    refine congrArg (l :: ·) (ih fun hrest => h (hrest.trans ?_))
    rw [kindsOf, kindsOf, List.filterMap_cons]
    split
    · exact List.infix_rfl
    · exact List.infix_cons List.infix_rfl
  | case5 => rfl

theorem infix_of_mem_lexemeLines {ls line : List Lexeme} (h : line ∈ lexemeLines ls) :
    line <:+: ls := by
  unfold lexemeLines at h
  induction ls using lines_induction (p := isLineEnd) with
  | last A hA =>
    rw [List.splitOnP_eq_singleton hA, List.mem_singleton] at h
    subst h
    exact List.infix_rfl
  | more A x B hA hx ih =>
    rw [List.splitOnP_append_cons_of_forall_mem hA _ hx] at h
    rcases List.mem_cons.1 h with rfl | h
    · exact ⟨[], x :: B, rfl⟩
    · exact (ih h).trans ⟨A ++ [x], [], by simp⟩

theorem layOut_congr {set set' : List Lexeme → List Lexeme} {lines : List (List Lexeme)}
    (h : ∀ line ∈ lines, set line = set' line) (depth : Nat) (started gap : Bool) :
    layOut set depth started gap lines = layOut set' depth started gap lines := by
  induction lines generalizing depth started gap with
  | nil => rfl
  | cons line lines ih =>
    obtain ⟨hline, hlines⟩ := List.forall_mem_cons.1 h
    simp only [layOut, hline, ih hlines]

/-- Without a number behind a point, the lexemes of the formatted text are those that were set. -/
theorem lexemes_format {source out : String} (h : format source = .ok out)
    (hdot : ¬ [Kind.dot, .number] <:+: kindsOf (Token.lexemes source.toList)) :
    Token.lexemes out.toList = formatted (Token.lexemes source.toList) := by
  have htidy : ∀ line ∈ lexemeLines (Token.lexemes source.toList), tidy line = lineOf line := by
    intro line hline
    refine glue_of_not_infix fun hpair => hdot (hpair.trans ?_)
    rw [kindsOf_lineOf]
    exact (infix_of_mem_lexemeLines hline).filterMap _
  rw [lexemes_of_format h, layOut_congr htidy]
  rfl

/-! ## The same lines -/

theorem codesOf_lineOf (ls : List Lexeme) : codesOf (lineOf ls) = codesOf ls :=
  filterMap_lineOf (fun _ => rfl) ls

theorem codePlaced_lineOf_map (k k' : Cursor) (line : List Lexeme) :
    (codePlaced k line).map (fun t => (t.kind, t.text)) =
      (codePlaced k' (lineOf line)).map (fun t => (t.kind, t.text)) := by
  rw [map_codePlaced, map_codePlaced, codesOf_lineOf]

theorem codePlaced_eq_nil {line : List Lexeme} (h : lineOf line = []) (k : Cursor) :
    codePlaced k line = [] := by
  have hcodes := codePlaced_lineOf_map k k line
  rw [h] at hcodes
  exact List.map_eq_nil_iff.1 hcodes

/-- The tokens of a line in a layout, behind the line ends before it. -/
theorem significant_layOut_cons {line : List Lexeme} (hset : lineOf line ≠ []) (k : Cursor)
    (depth : Nat) (started gap : Bool) (lines : List (List Lexeme)) (ts : List Token) :
    ∃ k₁ k₂ t, t.kind = .newline ∧
      significant (codePlaced k (layOut lineOf depth started gap (line :: lines)) ++ ts) =
        significant (codePlaced k₁ (lineOf line) ++ t :: (codePlaced k₂
          (layOut lineOf ((kindsOf line).foldl depthBy depth) true false lines) ++ ts)) := by
  obtain ⟨l, ls, hls⟩ := List.exists_cons_of_ne_nil hset
  have hindent (k : Cursor) (d : Nat) : codePlaced k (indent d) = [] := by
    unfold indent
    split_ifs <;> rfl
  have hgap : ∀ us, significant (codePlaced k (if gap then [lineEnd] else []) ++ us) =
      significant us := by
    intro us
    cases gap with
    | false => rfl
    | true => exact Parser.significant_cons rfl us
  rw [layOut, hls]
  dsimp only
  rw [List.append_assoc, List.append_assoc, codePlaced_append, List.append_assoc, hgap,
    codePlaced_append, hindent, List.nil_append, codePlaced_append, List.append_assoc]
  exact ⟨_, _, _, rfl, rfl⟩

/-- A source and its layout have the same lines. -/
theorem sameLines_layOut {ls : List Lexeme} (hend : ∀ l ∈ ls, l.kind ≠ some .eof) {eof eof' : Token}
    (heof : eof.kind = .eof) (heof' : eof'.kind = .eof) (htext : eof.text = eof'.text) (k k' : Cursor)
    (depth : Nat) (started gap : Bool) :
    SameLines (significant (codePlaced k ls ++ [eof]))
      (significant (codePlaced k' (layOut lineOf depth started gap (lexemeLines ls)) ++ [eof'])) := by
  have hpeek : peek [eof] = eof := Parser.peek_cons_of_ne (by simp [heof]) _
  have hpeek' : peek [eof'] = eof' := Parser.peek_cons_of_ne (by simp [heof']) _
  have hdone : SameLines [eof] [eof'] :=
    .done (by rwa [hpeek]) (by rwa [hpeek']) (by rwa [hpeek, hpeek'])
  unfold lexemeLines
  induction ls using lines_induction (p := isLineEnd) generalizing k k' depth started gap with
  | last A hA =>
    rw [List.splitOnP_eq_singleton hA]
    by_cases hset : lineOf A = []
    · simp only [layOut, hset, codePlaced_eq_nil hset]
      exact hdone.significant_both
    · obtain ⟨k₁, k₂, t, ht, hsig⟩ := significant_layOut_cons hset k' depth started gap [] [eof']
      have hlast : peek [t, eof'] = peek [eof'] := by rw [peek, Parser.significant_cons ht, peek]
      rw [hsig]
      exact (sameLines_append (codePlaced_lineOf_map k k₁ A) (kind_of_mem_codePlaced hA hend)
        (.ofPeek rfl hlast (by rwa [hpeek]) (by rwa [hpeek']) (by rwa [hpeek, hpeek']))).significant_both
  | more A x B hA hx ih =>
    have hkind : x.kind = some .newline := by simpa [isLineEnd] using hx
    have hrest := ih fun l hl => hend l (by simp [hl])
    obtain ⟨t, ht, hcode⟩ : ∃ t : Token, t.kind = .newline ∧ codePlaced k (A ++ x :: B) =
        codePlaced k A ++ t :: codePlaced ((k.advance (textOf A)).advance x.text) B := by
      rw [codePlaced_append, codePlaced, codePlaced, placed]
      simp only [hkind]
      exact ⟨_, rfl, rfl⟩
    rw [List.splitOnP_append_cons_of_forall_mem hA _ hx, hcode, List.append_assoc, List.cons_append]
    by_cases hset : lineOf A = []
    · simp only [layOut, hset, codePlaced_eq_nil hset, List.nil_append]
      rw [Parser.significant_cons ht]
      exact hrest _ _ _ _ _
    · obtain ⟨k₁, k₂, t', ht', hsig⟩ := significant_layOut_cons hset k' depth started gap
        (B.splitOnP isLineEnd) [eof']
      rw [hsig]
      exact (sameLines_append (codePlaced_lineOf_map k k₁ A)
        (kind_of_mem_codePlaced hA fun l hl => hend l (by simp [hl]))
        (.line ht ht' (hrest _ _ _ _ _))).significant_both

/-! ## Programs -/

/-- The formatted text has the same lines as its source. -/
theorem sameLines_format {source out : String} (h : format source = .ok out)
    (hdot : ¬ [Kind.dot, .number] <:+: kindsOf (Token.lexemes source.toList)) :
    SameLines (significant (Token.lex source)) (significant (Token.lex out)) := by
  obtain ⟨eof, heof, htext, hlex⟩ := lex_eq source
  obtain ⟨eof', heof', htext', hlex'⟩ := lex_eq out
  rw [hlex, hlex', lexemes_format h hdot]
  exact sameLines_layOut (fun _ hl => Token.kind_ne_eof hl) heof heof' (htext.trans htext'.symm) _ _ _ _ _

end Easel.Layout

namespace Easel

open Layout

/-- A source that is read without a fault compiles if it misuses no name. -/
theorem toOption_compile {source : String} (h : (parse (Token.lex source)).2 = []) (o : Options) :
    (compile o source).toOption =
      if (analyze (parse (Token.lex source)).1).2.length = 0
      then some ((parse (Token.lex source)).1.build o) else none := by
  simp only [compile, Checkup.ofSource, Checkup.diagnostics, h, List.isEmpty_nil, if_true,
    Diagnostic.withSnippets]
  cases (analyze (parse (Token.lex source)).1).2 <;> rfl

/-- Without a line map a program's positions do not matter. -/
theorem build_of_unplaced {p p' : Program} (h : p.unplaced = p'.unplaced) {o : Options}
    (ho : o.lineMap = false) : p.build o = p'.build o := by
  have hbuild (q : Program) : q.build o = ⟨generate o.toStyle q, none⟩ := by
    simp only [Program.build, ho, generate]
    rfl
  rw [hbuild, hbuild, generate_of_unplaced h]

/-- Formatting a source that is read without a fault keeps its meaning. -/
theorem format_preserves {source : String} (h : (parse (Token.lex source)).2 = []) :
    ∃ out, format source = .ok out ∧ (parse (Token.lex out)).2 = [] ∧
      (parse (Token.lex out)).1.unplaced = (parse (Token.lex source)).1.unplaced ∧
      ∀ o : Options, o.lineMap = false →
        (compile o out).toOption = (compile o source).toOption := by
  obtain ⟨hknown, hdot⟩ := known_of_parse h
  obtain ⟨out, hout⟩ : ∃ out, format source = .ok out := ⟨_, format_of_known hknown⟩
  obtain ⟨hprogram, hfaults⟩ := Parser.parse_of_sameLines (sameLines_format hout hdot)
  have hclean : (parse (Token.lex out)).2 = [] := by
    rw [h] at hfaults
    exact List.eq_nil_of_length_eq_zero hfaults.symm
  refine ⟨out, hout, hclean, hprogram.symm, fun o ho => ?_⟩
  rw [toOption_compile hclean, toOption_compile h, length_misuses_of_unplaced hprogram,
    build_of_unplaced hprogram ho]

/-- Blanks around a point and in brackets, empty lines and a comment. -/
theorem format_preserves_access :
    (parse (Token.lex "let p = [2]// two\n\n\n\tmax ( p . x ,-1 )")).2 = [] ∧
      ∃ out, format "let p = [2]// two\n\n\n\tmax ( p . x ,-1 )" = .ok out ∧
        (parse (Token.lex out)).2 = [] ∧
        (parse (Token.lex out)).1.unplaced =
          (parse (Token.lex "let p = [2]// two\n\n\n\tmax ( p . x ,-1 )")).1.unplaced ∧
        ∀ o : Options, o.lineMap = false → (compile o out).toOption =
          (compile o "let p = [2]// two\n\n\n\tmax ( p . x ,-1 )").toOption := by
  have h : (parse (Token.lex "let p = [2]// two\n\n\n\tmax ( p . x ,-1 )")).2 = [] := by
    decide +kernel
  exact ⟨h, format_preserves h⟩

end Easel
