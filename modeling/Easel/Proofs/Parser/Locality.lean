import Easel.Proofs.Parser.Depth
import Easel.Proofs.Parser.Simulation

/-!
# Reading goes line by line

A text that is read up to a line end without a fault at its end is read the same way if more text
follows: `parse_append_lines` says that the program and the faults are those of the two parts, one
after the other.  A broken statement is given up within its own part.

The proof runs the parsers on the first part alone and on the first part with more behind it
(`Junction.likeness`).  Until the first run has come to its end both see the same tokens.
-/

namespace Easel

/-- The fault was raised at the end of the text. -/
def Fault.atEnd (f : Fault) : Bool :=
  match f.problem with
  | .missing _ found => found.kind = .eof
  | .unknownCommand found => found.kind = .eof
  | .unexpectedEnd => true
  | _ => false

/-- The diagnostics of reading some tokens of a source. -/
def readingDiagnostics (source : String) (ts : List Token) : List Diagnostic :=
  Diagnostic.withSnippets source ((parse ts).2.map Fault.toDiagnostic)

namespace Parser

/-- A line end after which a text ends or goes on.  What goes on does not belong to the statement
before it. -/
structure Junction where
  lineEnd : Token
  textEnd : Token
  more : List Token
  kind_lineEnd : lineEnd.kind = .newline
  kind_textEnd : textEnd.kind = .eof
  ne_semicolon : (peek more).kind ≠ .semicolon
  ne_else : (peek more).kind ≠ .keyword .elseKw

namespace Junction

variable {J : Junction} {ts ts' : List Token}

/-- The lists start alike; after a line end the first is over and the second goes on. -/
def Cut (J : Junction) (ts ts' : List Token) : Prop :=
  ∃ A : List Token, (∀ t ∈ A, t.kind ≠ .eof) ∧ ts = A ++ [J.lineEnd, J.textEnd] ∧
    ts' = A ++ J.lineEnd :: J.more

/-- Only the end is left of the first list. -/
def Ended (J : Junction) (ts : List Token) : Prop := significant ts = [J.textEnd]

/-- The lists start alike, or the first is over where the second goes on. -/
def Met (J : Junction) (ts ts' : List Token) : Prop :=
  J.Cut ts ts' ∨ ts = [J.textEnd] ∧ ts' = significant J.more

theorem significant_lineEnd (J : Junction) (ts : List Token) :
    significant (J.lineEnd :: ts) = significant ts := by
  rw [significant, List.dropWhile_cons_of_pos (by simp [J.kind_lineEnd]), significant]

theorem significant_textEnd (J : Junction) : significant [J.textEnd] = [J.textEnd] :=
  significant_cons_of_ne (by simp [J.kind_textEnd]) _

/-- Before the first list is over, both lists have the same next token. -/
theorem Cut.significant (h : J.Cut ts ts') :
    (J.Ended ts ∧ significant ts' = significant J.more) ∨
    ∃ t rest rest', t.kind ≠ .newline ∧ t.kind ≠ .eof ∧ J.Cut rest rest' ∧
      Parser.significant ts = t :: rest ∧ Parser.significant ts' = t :: rest' := by
  obtain ⟨A, hA, rfl, rfl⟩ := h
  induction A with
  | nil =>
    refine .inl ⟨?_, ?_⟩
    · rw [Ended, List.nil_append, significant_lineEnd, significant_textEnd]
    · rw [List.nil_append, significant_lineEnd]
  | cons t A ih =>
    have hrest : ∀ u ∈ A, u.kind ≠ .eof := fun u hu => hA u (List.mem_cons_of_mem _ hu)
    by_cases hk : t.kind = .newline
    · rw [Ended, Parser.significant, List.cons_append, List.cons_append,
        List.dropWhile_cons_of_pos (by simp [hk]), Parser.significant,
        List.dropWhile_cons_of_pos (by simp [hk])]
      exact ih hrest
    · exact .inr ⟨t, _, _, hk, hA t List.mem_cons_self, ⟨A, hrest, rfl, rfl⟩,
        significant_cons_of_ne hk _, significant_cons_of_ne hk _⟩

theorem kind_peek_of_ended (h : J.Ended ts) : (peek ts).kind = .eof := by
  rw [peek_eq_of_significant h, J.kind_textEnd]

theorem Cut.cons (h : J.Cut ts ts') {t : Token} (ht : t.kind ≠ .eof) :
    J.Cut (t :: ts) (t :: ts') := by
  obtain ⟨A, hA, rfl, rfl⟩ := h
  refine ⟨t :: A, ?_, rfl, rfl⟩
  rintro u (_ | ⟨_, hu⟩)
  · exact ht
  · exact hA u hu

theorem Cut.peek_eq (h : J.Cut ts ts') (hend : ¬ J.Ended ts) : peek ts = peek ts' := by
  rcases h.significant with ⟨hended, -⟩ | ⟨t, rest, rest', -, -, -, hts, hts'⟩
  · exact absurd hended hend
  · rw [peek_eq_of_significant hts, peek_eq_of_significant hts']

theorem Cut.afterNext (h : J.Cut ts ts') (hend : ¬ J.Ended ts) :
    J.Cut (afterNext ts) (afterNext ts') := by
  rcases h.significant with ⟨hended, -⟩ | ⟨t, rest, rest', -, hk, hcut, hts, hts'⟩
  · exact absurd hended hend
  · rwa [afterNext_of_significant hts hk, afterNext_of_significant hts' hk]

/-- Without the line ends before the next token the lists are cut, or they meet behind the cut. -/
theorem Cut.met_significant (h : J.Cut ts ts') :
    J.Met (Parser.significant ts) (Parser.significant ts') := by
  rcases h.significant with hended | ⟨t, rest, rest', -, hk, hcut, hts, hts'⟩
  · exact .inr hended
  · rw [hts, hts']
    exact .inl (hcut.cons hk)

theorem Met.ended_or_cut (h : J.Met ts ts') : J.Ended ts ∨ J.Cut ts ts' := by
  rcases h with hcut | ⟨rfl, -⟩
  · exact .inr hcut
  · exact .inl J.significant_textEnd

theorem Cut.head (h : J.Cut ts ts') : ∃ t rest rest', t.kind ≠ .eof ∧ ts = t :: rest ∧
    ts' = t :: rest' ∧ (J.Cut rest rest' ∨
      t.kind = .newline ∧ rest = [J.textEnd] ∧ rest' = J.more) := by
  obtain ⟨A, hA, rfl, rfl⟩ := h
  cases A with
  | nil =>
    exact ⟨J.lineEnd, _, _, by simp [J.kind_lineEnd], rfl, rfl, .inr ⟨J.kind_lineEnd, rfl, rfl⟩⟩
  | cons t A =>
    exact ⟨t, _, _, hA t List.mem_cons_self, rfl, rfl,
      .inl ⟨A, fun u hu => hA u (List.mem_cons_of_mem _ hu), rfl, rfl⟩⟩

/-! ## Recovery -/

theorem met_resumeWithin (inBlock : Bool) (A : List Token) (hA : ∀ t ∈ A, t.kind ≠ .eof) :
    J.Met (resumeWithin inBlock (A ++ [J.lineEnd, J.textEnd]))
      (resumeWithin inBlock (A ++ J.lineEnd :: J.more)) := by
  induction A with
  | nil =>
    refine .inr ⟨?_, ?_⟩
    · simp only [List.nil_append, resumeWithin, J.kind_lineEnd, significant_textEnd]
    · simp only [List.nil_append, resumeWithin, J.kind_lineEnd]
  | cons t A ih =>
    have hrest : ∀ u ∈ A, u.kind ≠ .eof := fun u hu => hA u (List.mem_cons_of_mem _ hu)
    have hcut : J.Cut (A ++ [J.lineEnd, J.textEnd]) (A ++ J.lineEnd :: J.more) :=
      ⟨A, hrest, rfl, rfl⟩
    have hstay := hcut.cons (hA t List.mem_cons_self)
    simp only [List.cons_append, resumeWithin]
    cases hk : t.kind with
    | eof => exact absurd hk (hA t List.mem_cons_self)
    | newline => exact hcut.met_significant
    | rbrace =>
      cases inBlock with
      | true => exact .inl hstay
      | false => exact ih hrest
    | keyword word =>
      cases hw : word.startsStatement with
      | true => simpa only [hw, if_true] using .inl hstay
      | false => simpa only [hw, Bool.false_eq_true, if_false] using ih hrest
    | _ => exact ih hrest

/-- After a fault both runs go on at the same place. -/
theorem Cut.resume (h : J.Cut ts ts') (inBlock : Bool) :
    J.Met (resume inBlock ts) (resume inBlock ts') := by
  obtain ⟨A, hA, rfl, rfl⟩ := h
  cases A with
  | nil =>
    refine .inr ⟨?_, ?_⟩
    · simp only [List.nil_append, Parser.resume, J.kind_lineEnd, significant_textEnd]
    · simp only [List.nil_append, Parser.resume, J.kind_lineEnd]
  | cons t A =>
    have hrest : ∀ u ∈ A, u.kind ≠ .eof := fun u hu => hA u (List.mem_cons_of_mem _ hu)
    have hcut : J.Cut (A ++ [J.lineEnd, J.textEnd]) (A ++ J.lineEnd :: J.more) :=
      ⟨A, hrest, rfl, rfl⟩
    simp only [List.cons_append, Parser.resume]
    cases hk : t.kind with
    | eof => exact absurd hk (hA t List.mem_cons_self)
    | newline => exact hcut.met_significant
    | rbrace =>
      cases inBlock with
      | true => exact .inl (hcut.cons (hA t List.mem_cons_self))
      | false => exact met_resumeWithin false A hrest
    | _ => exact met_resumeWithin inBlock A hrest

theorem Cut.toCommand (h : J.Cut ts ts') :
    J.Ended (toCommand ts) ∨ J.Cut (toCommand ts) (toCommand ts') := by
  obtain ⟨A, hA, rfl, rfl⟩ := h
  induction A with
  | nil =>
    refine .inl ?_
    rw [List.nil_append, Parser.toCommand, List.dropWhile_cons_of_pos (by simp [J.kind_lineEnd]),
      List.dropWhile_cons_of_neg (by simp [J.kind_textEnd])]
    exact J.significant_textEnd
  | cons t A ih =>
    have hrest : ∀ u ∈ A, u.kind ≠ .eof := fun u hu => hA u (List.mem_cons_of_mem _ hu)
    simp only [Parser.toCommand, List.cons_append, List.dropWhile_cons] at ih ⊢
    split_ifs
    · exact ih hrest
    · exact .inr ⟨t :: A, hA, rfl, rfl⟩

/-- Parsers do alike on lists that are cut, up to the end of the first. -/
def likeness (J : Junction) : Likeness where
  place := id
  token := Eq
  list := J.Cut
  ended := J.Ended
  final f := f.atEnd = true ∨ f.problem = .exhausted
  kind_eq h := h ▸ rfl
  text_eq h := h ▸ rfl
  place_eq h := h ▸ rfl
  token_peek := Cut.peek_eq
  token_head h := by
    obtain ⟨t, rest, rest', -, rfl, rfl, -⟩ := h.head
    exact .inl rfl
  list_afterNext := Cut.afterNext
  list_significant h hend := h.met_significant.ended_or_cut.resolve_left fun h' =>
    hend (by rwa [Ended, significant_significant] at h')
  list_resume inBlock _ _ h := (h.resume inBlock).ended_or_cut
  list_toCommand := Cut.toCommand
  kind_peek_of_ended := kind_peek_of_ended
  final_missing expected h := by simp [Fault.atEnd, kind_peek_of_ended h]
  final_unexpectedEnd _ := .inl rfl
  final_exhausted _ := .inr rfl
  not_optional h hend := by
    rcases h.significant with ⟨-, hmore⟩ | ⟨t, rest, rest', -, hk, -, hts, -⟩
    · rw [peek, hmore]
      exact ⟨J.ne_semicolon, J.ne_else⟩
    · rw [Ended, hts] at hend
      rw [(List.cons.inj hend).1, J.kind_textEnd] at hk
      exact absurd rfl hk

theorem eq_of_faultAlike {f f' : Fault} (h : J.likeness.FaultAlike f f') : f = f' := by
  obtain ⟨p, problem⟩ := f
  obtain ⟨p', problem'⟩ := f'
  obtain ⟨hp, hproblem⟩ := h
  cases hproblem with
  | missing _ ht | unknownCommand ht => exact congr (congrArg Fault.mk hp) (congrArg _ ht)
  | refl => exact congrArg (Fault.mk · _) hp

theorem eq_of_forall₂_faultAlike {fs fs' : List Fault}
    (h : List.Forall₂ J.likeness.FaultAlike fs fs') : fs = fs' := by
  rw [← List.forall₂_eq_eq_eq]
  exact h.imp fun _ _ => eq_of_faultAlike

theorem eq_of_stmt {s s' : Stmt} (h : J.likeness.stmt s s') : s = s' := by
  rw [← Stmt.relocate_id s, ← Stmt.relocate_id s']
  exact h

/-- On lists that are cut, a parser of statements gives the same on both, leaving lists that are
cut, unless the first run meets the end. -/
theorem same_of_sim {one : Parser Stmt} (h : J.likeness.Sim J.likeness.stmt one one)
    (hts : J.Cut ts ts') :
    J.likeness.Lost (one ts) ∨ (one ts).result = (one ts').result ∧
      (one ts).reported = (one ts').reported ∧ J.Cut (one ts).rest (one ts').rest := by
  refine (h ts ts' hts).imp_right fun ⟨hresult, hreported, hrest⟩ =>
    ⟨?_, eq_of_forall₂_faultAlike hreported, hrest⟩
  generalize (one ts).result = r at hresult ⊢
  generalize (one ts').result = r' at hresult ⊢
  cases hresult with
  | ok hs => rw [eq_of_stmt hs]
  | error hf => rw [eq_of_faultAlike hf]

theorem length_resume_lt_of_cut (h : J.Cut ts ts') :
    (Parser.resume false ts).length < ts.length ∧ (Parser.resume false ts').length < ts'.length := by
  have shorter {t : Token} {rest : List Token} (ht : t.kind ≠ .eof) :
      (Parser.resume false (t :: rest)).length < (t :: rest).length := by
    have hw := (resumeWithin_suffix false rest).length_le
    have hs := (significant_suffix rest).length_le
    rw [List.length_cons]
    simp only [Parser.resume, Bool.false_eq_true, if_false]
    split
    · omega
    · next hk => exact absurd hk ht
    · omega
    · omega
  obtain ⟨t, rest, rest', ht, rfl, rfl, -⟩ := h.head
  exact ⟨shorter ht, shorter ht⟩

end Junction

/-! ## Statement after statement -/

section StatementList

variable {one : Parser Stmt}

/-- Line ends before the first statement do not matter. -/
theorem statementList_significant (inBlock : Bool) (one : Parser Stmt) (k : Nat) (ts : List Token) :
    (statementList inBlock one k (significant ts)).result =
        (statementList inBlock one k ts).result ∧
      (statementList inBlock one k (significant ts)).reported =
        (statementList inBlock one k ts).reported := by
  cases k with
  | zero => exact ⟨rfl, rfl⟩
  | succ k =>
    cases hend : endsStatements inBlock (peek ts).kind with
    | true =>
      rw [statementList_of_ends hend, statementList_of_ends (by rwa [peek_significant])]
      exact ⟨rfl, rfl⟩
    | false =>
      rw [statementList, look_bind, look_bind, peek_significant, if_neg (by simp [hend]),
        skipLineEnds_bind, skipLineEnds_bind, significant_significant]
      exact ⟨rfl, rfl⟩

/-- The outcome is that of two runs, one after the other. -/
def Joins (o first second : Outcome (List Stmt)) : Prop :=
  ∃ b b', first.result = .ok b ∧ second.result = .ok b' ∧ o.result = .ok (b ++ b') ∧
    o.reported = first.reported ++ second.reported

theorem endsStatements_false {k : Token.Kind} (h : k ≠ .eof) : endsStatements false k = false := by
  unfold endsStatements
  split <;> simp_all

/-- A statement that meets the end leaves a fault at the end among those reported. -/
theorem exists_final_of_lost {J : Junction} {ts : List Token}
    (hend : endsStatements false (peek ts).kind = false)
    (h : J.likeness.Lost (one (significant ts))) (k : Nat) :
    ∃ f ∈ (statementList false one (k + 1) ts).reported, J.likeness.final f := by
  cases hr : (one (significant ts)).result with
  | ok s =>
    rw [statementList_of_ok hend hr]
    rcases h with ⟨f, hf, -⟩ | ⟨f, hf, hfinal⟩
    · rw [hr] at hf
      cases hf
    · exact ⟨f, List.mem_append_left _ hf, hfinal⟩
  | error fault =>
    rw [statementList_of_error hend hr]
    rcases h with ⟨f, hf, hfinal⟩ | ⟨f, hf, hfinal⟩
    · rw [hr] at hf
      cases hf
      exact ⟨fault, List.mem_append_right _ List.mem_cons_self, hfinal⟩
    · exact ⟨f, List.mem_append_left _ hf, hfinal⟩

section Joins

variable {J : Junction} {P : Stmt → Prop} (hs : ReadsAny P one) (hc : Consumes one) {m : Nat}
  (hm : J.more.length ≤ m)
include hs hc hm

/-- Where the first list is over, the second run is the run on what follows. -/
theorem joins_of_ended {k : Nat} {ts ts' : List Token} (hend : J.Ended ts)
    (hmore : significant ts' = significant J.more) (hk : ts'.length ≤ k) :
    Joins (statementList false one k ts') (statementList false one k ts)
      (statementList false one m J.more) := by
  have hlen := (significant_suffix ts').length_le
  have hlen' := (significant_suffix J.more).length_le
  rw [hmore] at hlen
  have hrun : statementList false one k (significant J.more) =
      statementList false one m (significant J.more) :=
    statementList_congr hs hc (by omega) (by omega)
  obtain ⟨hresult, hreported⟩ := statementList_significant false one k ts'
  obtain ⟨hresult', hreported'⟩ := statementList_significant false one m J.more
  obtain ⟨b', hb'⟩ := exists_statementList_eq_ok false one m J.more
  have hfirst : statementList false one k ts = ⟨.ok [], [], ts⟩ :=
    statementList_of_ends (by rw [Junction.kind_peek_of_ended hend]; rfl) k
  rw [hmore, hrun] at hresult hreported
  refine ⟨[], b', by rw [hfirst], hb', ?_, ?_⟩
  · rw [← hresult, hresult', hb', List.nil_append]
  · rw [← hreported, hreported', hfirst, List.nil_append]

/-- What is read of a list that goes on is what is read up to the cut and what is read after it. -/
theorem joins_statementList (hsim : J.likeness.Sim J.likeness.stmt one one) {k : Nat} :
    ∀ {ts ts'}, J.Met ts ts' → ts.length ≤ k → ts'.length ≤ k →
      (∀ f ∈ (statementList false one k ts).reported, ¬ J.likeness.final f) →
      Joins (statementList false one k ts') (statementList false one k ts)
        (statementList false one m J.more) := by
  induction k with
  | zero =>
    rintro ts ts' (hcut | ⟨rfl, -⟩) hk
    · obtain ⟨t, rest, rest', -, rfl, -, -⟩ := hcut.head
      exact absurd hk (Nat.not_succ_le_zero _)
    · exact absurd hk (Nat.not_succ_le_zero _)
  | succ k ih =>
    rintro ts ts' (hcut | ⟨rfl, rfl⟩) hk hk' hfaults
    swap
    · exact joins_of_ended hs hc hm J.significant_textEnd (significant_significant _) hk'
    rcases hcut.significant with ⟨hend, hmore⟩ | ⟨t, rest, rest', -, ht, hrest, hts, hts'⟩
    · exact joins_of_ended hs hc hm hend hmore hk'
    have hends : endsStatements false (peek ts).kind = false := by
      rw [peek_eq_of_significant hts]
      exact endsStatements_false ht
    have hends' : endsStatements false (peek ts').kind = false := by
      rw [peek_eq_of_significant hts']
      exact endsStatements_false ht
    have hsig : J.Cut (significant ts) (significant ts') := by
      rw [hts, hts']
      exact hrest.cons ht
    have hle := (significant_suffix ts).length_le
    have hle' := (significant_suffix ts').length_le
    rcases Junction.same_of_sim hsim hsig with hlost | ⟨hresult, hreported, hcut'⟩
    · obtain ⟨f, hf, hfinal⟩ := exists_final_of_lost hends hlost k
      exact absurd hfinal (hfaults f hf)
    cases hr : (one (significant ts)).result with
    | ok s =>
      have hr' := hresult.symm.trans hr
      rw [statementList_of_ok hends hr] at hfaults ⊢
      rw [statementList_of_ok hends' hr']
      have hlen := hc _ s hr
      have hlen' := hc _ s hr'
      obtain ⟨b, b', hb, hb', hjoin, hjoin'⟩ := ih (.inl hcut') (by omega) (by omega)
        fun f hf => hfaults f (List.mem_append_right _ hf)
      refine ⟨s :: b, b', ?_, hb', ?_, ?_⟩ <;> dsimp only
      · rw [hb]
        rfl
      · rw [hjoin]
        rfl
      · rw [hjoin', hreported, List.append_assoc]
    | error fault =>
      have hr' := hresult.symm.trans hr
      rw [statementList_of_error hends hr] at hfaults ⊢
      rw [statementList_of_error hends' hr']
      have hlen := Junction.length_resume_lt_of_cut hcut'
      have hrest := hs.length_rest_le (significant ts)
      have hrest' := hs.length_rest_le (significant ts')
      obtain ⟨b, b', hb, hb', hjoin, hjoin'⟩ := ih (hcut'.resume false) (by omega) (by omega)
        fun f hf => hfaults f (List.mem_append_right _ (List.mem_cons_of_mem _ hf))
      refine ⟨b, b', hb, hb', hjoin, ?_⟩
      dsimp only
      rw [hjoin', hreported, List.append_assoc, List.cons_append]

end Joins

end StatementList

end Parser

/-! ## Programs -/

theorem readingDiagnostics_eq_append {source : String} {ts ts₁ ts₂ : List Token}
    (h : (parse ts).2 = (parse ts₁).2 ++ (parse ts₂).2) :
    readingDiagnostics source ts =
      readingDiagnostics source ts₁ ++ readingDiagnostics source ts₂ := by
  simp only [readingDiagnostics, Diagnostic.withSnippets, h, List.map_append]

/-- Text that follows a line end is read apart from the text before it, if that was not waiting for
more: the program is that of the two parts one after the other, and so are the faults and, for any
source, the diagnostics. -/
theorem parse_append_lines (A B : List Token) (lineEnd textEnd : Token)
    (hA : ∀ t ∈ A, t.kind ≠ .eof) (hline : lineEnd.kind = .newline) (hend : textEnd.kind = .eof)
    (hsemicolon : (Parser.peek B).kind ≠ .semicolon)
    (helse : (Parser.peek B).kind ≠ .keyword .elseKw)
    (hfaults : ∀ f ∈ (parse (A ++ [lineEnd, textEnd])).2, f.atEnd = false) :
    (parse (A ++ lineEnd :: B)).1 = (parse (A ++ [lineEnd, textEnd])).1 ++ (parse B).1 ∧
    (parse (A ++ lineEnd :: B)).2 = (parse (A ++ [lineEnd, textEnd])).2 ++ (parse B).2 ∧
    ∀ source, readingDiagnostics source (A ++ lineEnd :: B) =
      readingDiagnostics source (A ++ [lineEnd, textEnd]) ++ readingDiagnostics source B := by
  let J : Parser.Junction := ⟨lineEnd, textEnd, B, hline, hend, hsemicolon, helse⟩
  let n := A.length + B.length + 5
  -- under a bound that is enough for all three lists
  have hparse (ts : List Token) (hts : ts.length + 2 ≤ n + 1) := Parser.parse_eq_of_le hts
  have hfirst := hparse (A ++ [lineEnd, textEnd]) (by simp [n]; omega)
  have hboth := hparse (A ++ lineEnd :: B) (by simp [n]; omega)
  have hsecond := hparse B (by omega)
  have hfinal : ∀ f ∈ (parse (A ++ [lineEnd, textEnd])).2, ¬ J.likeness.final f := fun f hf h =>
    h.elim (ne_true_of_eq_false (hfaults f hf)) (Parser.fed_parse _ f hf)
  rw [hfirst] at hfinal
  have he := Parser.readsExpr_expressionWithin (n + 1)
  have hs := Parser.readsStmts_statementsWithin n true
  obtain ⟨b, b', hb, hb', hresult, hreported⟩ := Parser.joins_statementList (J := J)
    (Parser.reads_statement Expr.hereditary_true he hs n)
    (Parser.consumes_statement he (Parser.consumes_expressionWithin _) n hs)
    (show B.length ≤ n by omega)
    (Parser.Likeness.firm_statement (Parser.Likeness.firm_expressionWithin (n + 1)) n
      (Parser.Likeness.openSim_statementsWithin n true)).sim
    (.inl ⟨A, hA, rfl, rfl⟩) (by simp [n]; omega) (by simp [n, J]; omega) hfinal
  have hreports : (parse (A ++ lineEnd :: B)).2 =
      (parse (A ++ [lineEnd, textEnd])).2 ++ (parse B).2 := by
    rw [hboth, hfirst, hsecond]
    exact hreported
  refine ⟨?_, hreports, fun source => readingDiagnostics_eq_append hreports⟩
  rw [hboth, hfirst, hsecond]
  simp only [Parser.statementsWithin]
  rw [hb, hb', hresult]
  rfl

/-- A broken line and a stray brace, before another broken line and a name. -/
theorem parse_append_lines_broken :
    let tok (kind : Token.Kind) (text : String) : Token := ⟨kind, text, ⟨1, 1⟩, 0⟩
    let A := [tok (.keyword .letKw) "let", tok .assign "=", tok .newline "\n", tok .rbrace r"}"]
    let B := [tok .rparen ")", tok .newline "\n", tok .identifier "x", tok .eof ""]
    let lineEnd := tok .newline "\n"
    let textEnd := tok .eof ""
    (∀ f ∈ (parse (A ++ [lineEnd, textEnd])).2, f.atEnd = false) ∧
    (parse (A ++ [lineEnd, textEnd])).2.length = 2 ∧
    (parse (A ++ lineEnd :: B)).1 = (parse (A ++ [lineEnd, textEnd])).1 ++ (parse B).1 ∧
    (parse (A ++ lineEnd :: B)).2 = (parse (A ++ [lineEnd, textEnd])).2 ++ (parse B).2 ∧
    ∀ source, readingDiagnostics source (A ++ lineEnd :: B) =
      readingDiagnostics source (A ++ [lineEnd, textEnd]) ++ readingDiagnostics source B :=
  ⟨by decide, by decide, parse_append_lines _ _ _ _ (by decide) rfl rfl (by decide) (by decide)
    (by decide)⟩

end Easel
