import Easel.Proofs.Parser.Locality

/-!
# Lines of tokens

Where tokens stand and how many line ends are in a row does not matter to a parser.  Two token lists
with the same lines (`SameLines`) are read as the same program up to positions, and faults are met in
both or in none: `parse_of_sameLines`.
-/

namespace Easel.Parser

/-- The lists have the same tokens on the same lines, but for empty lines and positions. -/
inductive SameLines : List Token → List Token → Prop
  | done {ts ts' : List Token} (h : (peek ts).kind = .eof) (h' : (peek ts').kind = .eof)
      (htext : (peek ts).text = (peek ts').text) : SameLines ts ts'
  | token {t t' : Token} {ts ts' : List Token} (hkind : t.kind = t'.kind) (htext : t.text = t'.text)
      (hline : t.kind ≠ .newline) (hend : t.kind ≠ .eof) (h : SameLines ts ts') :
      SameLines (t :: ts) (t' :: ts')
  | line {t t' : Token} {ts ts' : List Token} (ht : t.kind = .newline) (ht' : t'.kind = .newline)
      (h : SameLines (significant ts) (significant ts')) : SameLines (t :: ts) (t' :: ts')

namespace SameLines

variable {ts ts' : List Token}

/-! ## Steps on both lists -/

theorem ofPeek {us us' : List Token} (hp : peek us = peek ts) (hp' : peek us' = peek ts')
    (h : (peek ts).kind = .eof) (h' : (peek ts').kind = .eof)
    (htext : (peek ts).text = (peek ts').text) : SameLines us us' :=
  .done (by rwa [hp]) (by rwa [hp']) (by rwa [hp, hp'])

theorem peek_eq (h : SameLines ts ts') :
    (peek ts).kind = (peek ts').kind ∧ (peek ts).text = (peek ts').text := by
  induction h with
  | done h h' htext => exact ⟨h.trans h'.symm, htext⟩
  | token hkind htext hline _ _ _ =>
    rw [peek_cons_of_ne hline, peek_cons_of_ne (hkind ▸ hline)]
    exact ⟨hkind, htext⟩
  | line ht ht' _ ih =>
    rw [peek_significant, peek_significant] at ih
    rwa [peek, peek, significant_cons ht, significant_cons ht']

theorem closesLine_headD (h : (peek ts).kind = .eof) : closesLine (ts.headD .beyond).kind = true := by
  by_cases hn : (ts.headD .beyond).kind = .newline
  · rw [hn]
    rfl
  · rw [← peek_eq_headD hn, h]
    rfl

theorem afterNext_of_eof (h : (peek ts).kind = .eof) : afterNext ts = significant ts := by
  unfold afterNext
  cases hs : significant ts with
  | nil => rfl
  | cons t rest =>
    rw [peek_eq_of_significant hs] at h
    exact if_pos h

theorem significant_both (h : SameLines ts ts') : SameLines (significant ts) (significant ts') := by
  cases h with
  | done h h' htext => exact .ofPeek (peek_significant ts) (peek_significant ts') h h' htext
  | token hkind htext hline hend h =>
    rw [significant_cons_of_ne hline, significant_cons_of_ne (hkind ▸ hline)]
    exact .token hkind htext hline hend h
  | line ht ht' h => rwa [significant_cons ht, significant_cons ht']

theorem afterNext_both (h : SameLines ts ts') : SameLines (afterNext ts) (afterNext ts') := by
  induction h with
  | done h h' htext =>
    rw [afterNext_of_eof h, afterNext_of_eof h']
    exact (SameLines.done h h' htext).significant_both
  | token hkind htext hline hend h _ =>
    rwa [afterNext_of_significant (significant_cons_of_ne hline _) hend,
      afterNext_of_significant (significant_cons_of_ne (hkind ▸ hline) _) (hkind ▸ hend)]
  | line ht ht' _ ih =>
    rw [afterNext, afterNext, significant_significant, significant_significant] at ih
    rwa [afterNext, afterNext, significant_cons ht, significant_cons ht']

/-- At the end of the text nothing is skipped but line ends. -/
theorem peek_resumeWithin (inBlock : Bool) (h : (peek ts).kind = .eof) :
    peek (resumeWithin inBlock ts) = peek ts := by
  cases ts with
  | nil => rfl
  | cons t ts =>
    by_cases hn : t.kind = .newline
    · simp only [resumeWithin, hn]
      rw [peek_significant, peek, peek, significant_cons hn]
    · rw [peek_cons_of_ne hn] at h
      simp only [resumeWithin, h]

theorem peek_resume (inBlock : Bool) (h : (peek ts).kind = .eof) :
    peek (resume inBlock ts) = peek ts := by
  cases ts with
  | nil => rfl
  | cons t ts =>
    by_cases hn : t.kind = .newline
    · simp only [resume, hn]
      rw [peek_significant, peek, peek, significant_cons hn]
    · rw [peek_cons_of_ne hn] at h
      simp only [resume, h]

theorem resumeWithin_both (inBlock : Bool) (h : SameLines ts ts') :
    SameLines (resumeWithin inBlock ts) (resumeWithin inBlock ts') := by
  induction h with
  | done h h' htext =>
    exact .ofPeek (peek_resumeWithin inBlock h) (peek_resumeWithin inBlock h') h h' htext
  | @token t t' ts ts' hkind htext hline hend h ih =>
    have stay := SameLines.token hkind htext hline hend h
    simp only [resumeWithin, ← hkind]
    cases hk : t.kind with
    | newline => exact absurd hk hline
    | eof => exact absurd hk hend
    | rbrace | keyword word =>
      dsimp only
      split_ifs
      · exact stay
      · exact ih
    | _ => exact ih
  | line ht ht' h _ => simpa only [resumeWithin, ht, ht'] using h

theorem resume_both (inBlock : Bool) (h : SameLines ts ts') :
    SameLines (resume inBlock ts) (resume inBlock ts') := by
  cases h with
  | done h h' htext =>
    exact .ofPeek (peek_resume inBlock h) (peek_resume inBlock h') h h' htext
  | @token t t' ts ts' hkind htext hline hend h =>
    have stay := SameLines.token hkind htext hline hend h
    simp only [resume, ← hkind]
    cases hk : t.kind with
    | newline => exact absurd hk hline
    | eof => exact absurd hk hend
    | rbrace =>
      dsimp only
      split_ifs
      · exact stay
      · exact h.resumeWithin_both inBlock
    | _ => exact h.resumeWithin_both inBlock
  | line ht ht' h => simpa only [resume, ht, ht'] using h

theorem toCommand_significant (ts : List Token) : toCommand (significant ts) = toCommand ts := by
  induction ts with
  | nil => rfl
  | cons t ts ih =>
    by_cases hn : t.kind = .newline
    · rw [significant_cons hn, ih]
      exact (List.dropWhile_cons_of_pos (by simp [hn])).symm
    · rw [significant_cons_of_ne hn]

theorem peek_toCommand (h : (peek ts).kind = .eof) : peek (toCommand ts) = peek ts := by
  rw [← toCommand_significant, ← peek_significant ts]
  cases hs : significant ts with
  | nil => rfl
  | cons t rest =>
    rw [peek_eq_of_significant hs] at h
    rw [toCommand, List.dropWhile_cons_of_neg (by simp [h])]

theorem toCommand_both (h : SameLines ts ts') : SameLines (toCommand ts) (toCommand ts') := by
  induction h with
  | done h h' htext => exact .ofPeek (peek_toCommand h) (peek_toCommand h') h h' htext
  | @token t t' ts ts' hkind htext hline hend h ih =>
    have stay := SameLines.token hkind htext hline hend h
    simp only [toCommand, List.dropWhile_cons, ← hkind]
    split_ifs
    · exact ih
    · exact stay
  | @line t t' ts ts' ht ht' _ ih =>
    rw [toCommand_significant, toCommand_significant] at ih
    rwa [← toCommand_significant (t :: ts), ← toCommand_significant (t' :: ts'),
      significant_cons ht, significant_cons ht', toCommand_significant, toCommand_significant]

/-- Parsers do alike on lists with the same lines. -/
def likeness : Likeness where
  place := fun _ => {}
  token t t' := t.kind = t'.kind ∧ t.text = t'.text
  list := SameLines
  ended _ := False
  final _ := False
  kind_eq h := h.1
  text_eq h := h.2
  place_eq _ := rfl
  token_peek h _ := h.peek_eq
  token_head h := by
    cases h with
    | done h h' _ => exact .inr ⟨closesLine_headD h, closesLine_headD h'⟩
    | token hkind htext _ _ _ => exact .inl ⟨hkind, htext⟩
    | line ht ht' _ =>
      rw [List.headD_cons, List.headD_cons, ht, ht']
      exact .inr ⟨rfl, rfl⟩
  list_afterNext h _ := h.afterNext_both
  list_significant h _ := h.significant_both
  list_resume inBlock _ _ h := .inr (h.resume_both inBlock)
  list_toCommand h := .inr h.toCommand_both
  kind_peek_of_ended h := h.elim
  final_missing _ h := h
  final_unexpectedEnd h := h
  final_exhausted h := h
  not_optional _ h := h.elim

end SameLines

/-! ## Reading both lists -/

/-- Line ends before the first token do not matter to a program. -/
theorem parse_eq_significant {ts : List Token} {n : Nat} (h : ts.length + 2 ≤ n) :
    parse ts = ((statementsWithin n false (significant ts)).result.toOption.getD [],
      (statementsWithin n false (significant ts)).reported) := by
  obtain ⟨m, rfl⟩ := Nat.exists_eq_add_of_le' (show 1 ≤ n by omega)
  rw [parse_eq_of_le h]
  simp only [statementsWithin, statementList_significant]

/-- Tokens with the same lines are read as the same program, and with as many faults. -/
theorem parse_of_sameLines {ts ts' : List Token}
    (h : SameLines (significant ts) (significant ts')) :
    (parse ts).1.unplaced = (parse ts').1.unplaced ∧ (parse ts).2.length = (parse ts').2.length := by
  let n := ts.length + ts'.length + 2
  rw [parse_eq_significant (show ts.length + 2 ≤ n by omega),
    parse_eq_significant (show ts'.length + 2 ≤ n by omega)]
  rcases SameLines.likeness.openSim_statementsWithin n false _ _ h with
    (hlost | ⟨hresult, hreported, -⟩) | ⟨hended, -⟩
  · rcases hlost with ⟨_, _, hfinal⟩ | ⟨_, _, hfinal⟩ <;> exact hfinal.elim
  · refine ⟨?_, hreported.length_eq⟩
    generalize (statementsWithin n false (significant ts)).result = r at hresult ⊢
    generalize (statementsWithin n false (significant ts')).result = r' at hresult ⊢
    cases hresult with
    | ok h => exact h
    | error _ => rfl
  · exact hended.elim

end Easel.Parser
