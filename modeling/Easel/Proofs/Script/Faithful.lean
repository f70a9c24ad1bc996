import Easel.Proofs.Layout.Code
import Easel.Proofs.Script.Reading

/-!
# Faithful scripts of expressions

The text of an expression, read again, is one statement that holds the expression itself up to
positions exactly if no call and no access in it has a negation as its base: `script_readsAs_iff`.
Where a base is a negation, the minus sign of the text applies to the call or access.
-/

namespace Easel

open Token (Kind Lexeme Readable textOf)
open Layout (codePlaced codesOf)
open Easel.Parser

/-! ## One statement -/

section Statement

variable (n : Nat) {expr : Parser Expr} (statements : Parser (List Stmt)) {t : Token}
  {ts rest close : List Token} {o : Option Expr}

theorem gives_bareStatement (ht : startsExpr t.kind = true) (h : (expr (t :: ts)).Gives o rest) :
    (bareStatement n expr statements (t :: ts)).Gives (o.map .expr) rest := by
  have hexpr : (exprStatement expr (t :: ts)).Gives (o.map .expr) rest := by
    rw [Option.map_eq_bind]
    exact gives_bind h fun _ => gives_pure _ _
  refine gives_look (startsExpr_spec ht).1 ?_
  cases hk : t.kind with
  | keyword word =>
    rw [hk] at ht
    cases word with
    | trueKw | falseKw | nullKw => exact hexpr
    | _ => cases ht
  | _ => exact hexpr

/-- The end of a text. -/
def endToken : Token := ⟨.eof, "", {}, 0⟩

theorem gives_statement (hclose : close = [] ∨ close = [mark ';'])
    (ht : startsExpr t.kind = true) (h : (expr (t :: ts)).Gives o (close ++ [endToken])) :
    (statement n expr statements (t :: ts)).Gives (o.map .expr) [endToken] := by
  have hskip : (skipOptional .semicolon (close ++ [endToken])).Gives (some ()) [endToken] := by
    rcases hclose with rfl | rfl <;> rfl
  rw [← Option.bind_fun_some (o.map Stmt.expr)]
  exact gives_bind (gives_bareStatement n statements ht h) fun s =>
    gives_bind (g := fun _ => some s) hskip fun _ => gives_pure _ _

/-- A program of one statement, which is read or else reported. -/
theorem statementList_single {one : Parser Stmt} {s : Option Stmt} (ht : isVisible t.kind = true)
    (h : (one (t :: ts)).Gives s [endToken]) (k : Nat) :
    (∀ a, s = some a →
      statementList false one (k + 1) (t :: ts) = ⟨.ok [a], [], [endToken]⟩) ∧
      (s = none → (statementList false one (k + 1) (t :: ts)).reported ≠ []) := by
  have hends : endsStatements false (peek (t :: ts)).kind = false := by
    rw [peek_cons ht]
    cases hk : t.kind <;> simp_all [endsStatements, isVisible]
  have hsignificant := significant_cons_of_ne (isVisible_spec ht).1 ts
  constructor
  · rintro a rfl
    have hone : one (significant (t :: ts)) = ⟨.ok a, [], [endToken]⟩ := by
      rw [hsignificant]
      exact h
    rw [statementList_of_ok hends (congrArg Outcome.result hone), hone]
    dsimp only
    rw [statementList_of_ends rfl]
    rfl
  · rintro rfl
    obtain ⟨fault, hfault⟩ := h
    rw [statementList_of_error hends (by rw [hsignificant]; exact hfault)]
    simp

/-- A program of one expression, which is read or else reported. -/
theorem parse_single (hclose : close = [] ∨ close = [mark ';']) (ht : startsExpr t.kind = true)
    (h : (expressionWithin ((t :: ts).length + 2) (t :: ts)).Gives o (close ++ [endToken])) :
    (∀ r, o = some r → parse (t :: ts) = ([.expr r], [])) ∧
      (o = none → (parse (t :: ts)).2 ≠ []) := by
  let n := (t :: ts).length + 1
  obtain ⟨hsome, hnone⟩ := statementList_single (startsExpr_spec ht).1
    (gives_statement n (statementsWithin n true) hclose ht h) (t :: ts).length
  refine ⟨?_, ?_⟩
  · rintro r rfl
    rw [parse, statementsWithin, hsome (.expr r) rfl]
    rfl
  · rintro rfl
    exact hnone rfl

end Statement

variable {e : Expr}

/-- A program that is the script of an expression. -/
theorem parse_tokens (h : e.Writable) {close : List Token}
    (hclose : close = [] ∨ close = [mark ';']) :
    (∀ r, e.reread = some r → parse (e.tokens false ++ (close ++ [endToken])) = ([.expr r], [])) ∧
      (e.reread = none → (parse (e.tokens false ++ (close ++ [endToken]))).2 ≠ []) := by
  obtain ⟨t, more, htokens, ht⟩ := Expr.exists_tokens_cons h false
  obtain ⟨t', rest, hend, hclosing⟩ : ∃ t' rest, close ++ [endToken] = t' :: rest ∧
      closesExpr t'.kind = true := by
    rcases hclose with rfl | rfl <;> exact ⟨_, _, rfl, rfl⟩
  have hread : (expressionWithin ((e.tokens false ++ t' :: rest).length + 2)
      (e.tokens false ++ t' :: rest)).Gives e.reread (t' :: rest) :=
    (reads_of_writable h).2 (by rw [List.length_append]; omega) hclosing
  rw [← hend, htokens] at hread
  rw [htokens]
  exact parse_single hclose ht hread

/-! ## The text of an expression -/

/-- Whether a lexeme is neither a comment nor the end of a line or of the text. -/
def isCode (l : Lexeme) : Bool :=
  match l.kind with
  | some .comment | some .newline | some .eof => false
  | _ => true

@[simp] theorem isCode_sign (c : Char) : isCode (sign c) = true := by
  by_cases h : Token.punctuation c = .unknown
  · simp [isCode, sign, h]
  · have hsign := Token.isSign_punctuation h
    rw [isCode, sign]
    cases hk : Token.punctuation c <;> simp_all [Kind.isSign]

@[simp] theorem isCode_op (op : BinaryOp) : isCode (opLexeme op) = true := rfl

@[simp] theorem isCode_space : isCode Layout.space = true := rfl

@[simp] theorem isCode_name (name : String) : isCode (nameLexeme name) = true := rfl

theorem isCode_commaJoined {lss : List (List Lexeme)} (h : ∀ ls ∈ lss, ls.all isCode = true) :
    (commaJoined lss).all isCode = true := by
  induction lss with
  | nil => rfl
  | cons ls lss ih =>
    obtain ⟨hls, hlss⟩ := List.forall_mem_cons.1 h
    cases lss with
    | nil => exact hls
    | cons ls' lss =>
      rw [commaJoined, List.all_append, hls, Bool.true_and]
      · exact ih hlss
      · simp

theorem isCode_pieces (h : e.Writable) (nested : Bool) : (e.pieces nested).all isCode = true := by
  have each {es : List Expr} (hes : ∀ e ∈ es, ∀ nested, (e.pieces nested).all isCode = true) :
      (commaJoined (Expr.piecesOf es)).all isCode = true := by
    refine isCode_commaJoined fun ls hls => ?_
    rw [Expr.piecesOf_eq_map] at hls
    obtain ⟨e, he, rfl⟩ := List.mem_map.1 hls
    exact hes e he true
  induction h generalizing nested with
  | ident | number | string | bool | null => rfl
  | array _ ih => simp [Expr.pieces, each ih]
  | negate _ ih =>
    rw [Expr.pieces]
    split_ifs <;> simp [ih]
  | binary _ _ _ ihl ihr => simp [Expr.pieces, ihl, ihr]
  | assign _ _ _ iht ihv => cases nested <;> simp [Expr.pieces, iht, ihv]
  | call _ _ ihc ihargs => simp [Expr.pieces, ihc, each ihargs]
  | member _ _ ih => simp [Expr.pieces, ih]
  | index _ _ ihb ihk => simp [Expr.pieces, ihb, ihk]

theorem map_bareTokens {ls : List Lexeme} (h : ls.all isCode = true) :
    (bareTokens ls).map (fun t => (t.kind, t.text)) = codesOf ls := by
  induction ls with
  | nil => rfl
  | cons l ls ih =>
    rw [List.all_cons, Bool.and_eq_true] at h
    obtain ⟨_ | kind, text⟩ := l
    · exact ih h.2
    · have hkind : kind ≠ .comment := by
        rintro rfl
        cases h.1
      simp only [bareTokens, codesOf, List.filterMap_cons, Option.map_some, Option.bind_some,
        if_neg hkind, List.map_cons]
      exact congrArg (_ :: ·) (ih h.2)

/-- A line of lexemes, with its line end or without, has the tokens of the lexemes. -/
theorem sameLines_line {source : String} {ls tail : List Lexeme} (h : ls.all isCode = true)
    (htail : tail = [] ∨ tail = [Layout.lineEnd])
    (hsource : Token.lexemes source.toList = ls ++ tail) :
    SameLines (Token.lex source) (bareTokens ls ++ [endToken]) := by
  obtain ⟨eof, heof, htext, hlex⟩ := Layout.lex_eq source
  rw [hlex, hsource, Layout.codePlaced_append, List.append_assoc]
  refine Layout.sameLines_append ((Layout.map_codePlaced _ ls).trans (map_bareTokens h).symm)
    (Layout.kind_of_mem_codePlaced ?_ ?_) ?_
  · intro l hl
    have hcode := List.all_eq_true.1 h l hl
    rw [Layout.isLineEnd, beq_eq_false_iff_ne]
    intro hline
    rw [isCode, hline] at hcode
    cases hcode
  · intro l hl hend
    have hcode := List.all_eq_true.1 h l hl
    rw [isCode, hend] at hcode
    cases hcode
  · have hpeek : peek (codePlaced (Cursor.start.advance (textOf ls)) tail ++ [eof]) = eof := by
      rcases htail with rfl | rfl
      · exact peek_cons_of_ne (by simp [heof]) []
      · obtain ⟨t, ht, hline⟩ : ∃ t : Token, t.kind = .newline ∧
            codePlaced (Cursor.start.advance (textOf ls)) [Layout.lineEnd] = [t] := ⟨_, rfl, rfl⟩
        rw [hline, List.singleton_append, peek, significant_cons ht, ← peek,
          peek_cons_of_ne (by simp [heof])]
    exact .done (by rw [hpeek, heof]) rfl (by rw [hpeek, htext]; rfl)

/-- The lexemes of a line that an expression is written on. -/
theorem lexemes_line (h : e.Writable) {close : List Lexeme}
    (hclose : close = [] ∨ close = [sign ';']) {s : Script}
    (hs : s.Flat (textOf (e.pieces false ++ close))) :
    Token.lexemes (Script.print (s ++ Script.lineEnd)).toList =
      e.pieces false ++ close ++ [Layout.lineEnd] := by
  have htext : (Script.print (s ++ Script.lineEnd)).toList =
      textOf (e.pieces false ++ close ++ [Layout.lineEnd]) :=
    hs.print_line.trans (Token.textOf_append _ [Layout.lineEnd]).symm
  have hend : Readable [] [Layout.lineEnd] := .cons (.newline _) .nil
  rw [htext]
  refine Token.lexemes_textOf (Token.readable_append.2 ⟨?_, hend⟩)
  rcases hclose with rfl | rfl
  · rw [List.append_nil (e.pieces false)]
    exact Expr.readable_pieces h false (follows_cons (c := '\n') (by decide) _)
  · exact Token.readable_append.2 ⟨Expr.readable_pieces h false (follows_cons (by decide) _),
      .cons (found_mark (by decide) _) .nil⟩

/-- The text is read without a fault as one statement, the expression up to positions. -/
def ReadsAs (text : String) (e : Expr) : Prop :=
  (parse (Token.lex text)).2 = [] ∧ (parse (Token.lex text)).1.unplaced = Program.unplaced [.expr e]

theorem unplaced_single (e : Expr) :
    Program.unplaced [.expr e] = [.expr (e.relocate fun _ => {})] := rfl

/-- A line that an expression is written on is read as the expression that its script says. -/
theorem readsAs_line_iff {e : Expr} (h : (e.relocate fun _ => {}).Writable) {close : List Lexeme}
    (hclose : close = [] ∨ close = [sign ';']) {s : Script}
    (hs : s.Flat (textOf ((e.relocate fun _ => {}).pieces false ++ close))) :
    ReadsAs (Script.print (s ++ Script.lineEnd)) e ↔
      ∃ r, (e.relocate fun _ => {}).reread = some r ∧
        r.relocate (fun _ => {}) = e.relocate fun _ => {} := by
  have hcode : ((e.relocate fun _ => {}).pieces false ++ close).all isCode = true := by
    rw [List.all_append, isCode_pieces h, Bool.true_and]
    rcases hclose with rfl | rfl <;> rfl
  have hlines := sameLines_line hcode (.inr rfl) (lexemes_line h hclose hs)
  obtain ⟨hprogram, hfaults⟩ := parse_of_sameLines hlines.significant_both
  have hclose' : bareTokens close = [] ∨ bareTokens close = [mark ';'] :=
    hclose.imp (fun h => by rw [h]; rfl) fun h => by rw [h]; rfl
  rw [bareTokens_append, List.append_assoc] at hprogram hfaults
  obtain ⟨hsome, hnone⟩ := parse_tokens h hclose'
  rw [ReadsAs, hprogram, ← List.length_eq_zero_iff, hfaults, List.length_eq_zero_iff,
    unplaced_single]
  cases hr : (e.relocate fun _ => {}).reread with
  | none => exact iff_of_false (fun hread => hnone hr hread.1) (by simp)
  | some r =>
    rw [← Expr.tokens, hsome r hr]
    simp [unplaced_single]

/-! ## Expressions of a source -/

/-- The expression is what is read at some place of a source. -/
def Expr.Produced (e : Expr) : Prop :=
  ∃ source n ts, ts <:+ Token.lex source ∧ (expressionWithin n ts).result = .ok e

theorem Expr.Produced.wellformed (h : e.Produced) : e.Wellformed := by
  obtain ⟨source, n, ts, hts, hread⟩ := h
  have hgenuine : ∀ t ∈ ts, t.Genuine := fun t ht => Token.genuine_lex source t (hts.mem ht)
  exact wellformed_expressionWithin n Token.genuine_beyond ts hgenuine e hread

/-- The text of an expression, alone on a line or as a statement, says the expression exactly if no
call and no access in it has a negation as its base. -/
theorem script_readsAs_iff {e : Expr} (he : e.Produced) (hplain : e.Plain) :
    (ReadsAs (Script.print (e.script [] false ++ Script.lineEnd)) e ↔ e.unsignedBases = true) ∧
      (ReadsAs (Script.print ((Stmt.expr e).script {}).2) e ↔ e.unsignedBases = true) := by
  have hw := Expr.writable_relocate hplain he.wellformed
  have hflat := Expr.flat_script hw false
  rw [Expr.script_relocate] at hflat
  have hsays := Expr.exists_reread_iff hw
  rw [Expr.unsignedBases_relocate] at hsays
  constructor
  · exact (readsAs_line_iff hw (.inl rfl) (hflat.of_eq (by simp))).trans hsays
  · exact (readsAs_line_iff hw (.inr rfl)
      ((hflat.append (Script.flat_code ";")).of_eq (by simp [sign]))).trans hsays

/-- A property of a negation is written as the negation of a property. -/
theorem script_readsAs_negated_base :
    let e : Expr := .member (.negate ⟨1, 2⟩ (.ident ⟨⟨1, 3⟩, "x"⟩)) ⟨⟨1, 6⟩, "y"⟩
    e.Produced ∧ e.Plain ∧ Script.print ((Stmt.expr e).script {}).2 = "-x.y;\n" ∧
      ¬ ReadsAs "-x.y;\n" e := by
  intro e
  have he : e.Produced := ⟨"(-x).y", 9, _, List.suffix_rfl, by
    dsimp only [e]
    eq_refl⟩
  have hplain : e.Plain := .member (.negate _ (.ident _)) _
  have htext : Script.print ((Stmt.expr e).script {}).2 = "-x.y;\n" := by decide +kernel
  refine ⟨he, hplain, htext, ?_⟩
  rw [← htext, (script_readsAs_iff he hplain).2]
  decide

end Easel
