import Easel.Proofs.Parser.Rest

/-!
# Where faults are met

A parser raises a fault at the token that comes next or at one it has just passed, and reports it
later, when others inside a nested block may have been reported before.  `Met ts fs rest` says that
between `ts` and `rest` the faults `fs` are met in this order, none behind the token that comes next
in `rest`.

Every report is paid for by a token of its own: tokens are counted by `weight`, line ends and the end
of the text apart.  A statement may fail without passing a token; it pays for its report because
reading then goes on behind the token it failed at (`weight_resume_lt`).
-/

namespace Easel

/-- The faults of a run: those that were reported, and the one it stopped at. -/
def Outcome.faults {α : Type} (o : Outcome α) : List Fault :=
  match o.result with
  | .error fault => o.reported ++ [fault]
  | .ok _ => o.reported

namespace Parser

variable {α β : Type}

/-- Reading has gone on from `ts` to `rest`: what comes next in `rest` is left of what comes next in
`ts`. -/
def Ahead (ts rest : List Token) : Prop := Left (significant rest) (significant ts)

namespace Ahead

variable {ts rest rest' : List Token}

theorem refl (ts : List Token) : Ahead ts ts := .here

theorem trans (h : Ahead ts rest) (h' : Ahead rest rest') : Ahead ts rest' := Left.trans h h'

end Ahead

theorem Left.ahead {ts rest : List Token} (h : Left rest ts) : Ahead ts rest := by
  unfold Ahead
  induction h with
  | here => exact .here
  | @cons t ts ht h ih =>
    by_cases hline : t.kind = .newline
    · rwa [significant_cons hline]
    · rw [significant_cons_of_ne hline]
      exact .cons ht (h.trans (left_significant rest))

/-! ## Faults in order -/

/-- The faults are met in this order from `ts` on: each stands at the token that came next somewhere,
and what comes next in `rest` is none before the last of them. -/
inductive Met : List Token → List Fault → List Token → Prop
  | done {ts rest : List Token} (h : Ahead ts rest) : Met ts [] rest
  | fault {ts us rest : List Token} {f : Fault} {fs : List Fault} (h : Ahead ts us)
      (hf : f.position = (peek us).position) (hrest : Met us fs rest) : Met ts (f :: fs) rest

namespace Met

variable {ts us rest : List Token} {fs gs : List Fault}

theorem ahead (h : Met ts fs rest) : Ahead ts rest := by
  induction h with
  | done h => exact h
  | fault h _ _ ih => exact h.trans ih

theorem of_ahead (h : Ahead ts us) (hmet : Met us fs rest) : Met ts fs rest := by
  cases hmet with
  | done h' => exact .done (h.trans h')
  | fault h' hf hrest => exact .fault (h.trans h') hf hrest

theorem append (h : Met ts fs us) (h' : Met us gs rest) : Met ts (fs ++ gs) rest := by
  induction h with
  | done h => exact .of_ahead h h'
  | fault h hf _ ih => exact .fault h hf (ih h')

theorem then_ahead (h : Met ts fs us) (h' : Ahead us rest) : Met ts fs rest := by
  have happend := h.append (.done h')
  rwa [List.append_nil] at happend

end Met

theorem faults_of_ok {o : Outcome α} {a : α} (h : o.result = .ok a) : o.faults = o.reported := by
  simp only [Outcome.faults, h]

theorem faults_of_error {o : Outcome α} {fault : Fault} (h : o.result = .error fault) :
    o.faults = o.reported ++ [fault] := by
  simp only [Outcome.faults, h]

theorem faults_append (reported : List Fault) (o : Outcome α) :
    (⟨o.result, reported ++ o.reported, o.rest⟩ : Outcome α).faults = reported ++ o.faults := by
  unfold Outcome.faults
  cases o.result with
  | ok a => rfl
  | error fault => exact List.append_assoc ..

/-! ## Counting tokens -/

/-- The number of tokens that are neither line ends nor the end of the text. -/
def weight (ts : List Token) : Nat := ts.countP fun t => t.kind != .newline && t.kind != .eof

theorem weight_cons {t : Token} (hline : t.kind ≠ .newline) (heof : t.kind ≠ .eof)
    (ts : List Token) : weight (t :: ts) = weight ts + 1 :=
  List.countP_cons_of_pos (by simp [hline, heof])

theorem weight_cons_newline {t : Token} (h : t.kind = .newline) (ts : List Token) :
    weight (t :: ts) = weight ts :=
  List.countP_cons_of_neg (by simp [h])

theorem Left.weight_le {ts rest : List Token} (h : Left rest ts) : weight rest ≤ weight ts := by
  induction h with
  | here => exact Nat.le_refl _
  | @cons t ts ht _ ih =>
    by_cases hline : t.kind = .newline
    · rwa [weight_cons_newline hline]
    · rw [weight_cons hline ht]
      omega

/-- Where a token comes first, all is left or a token that counts is dropped. -/
theorem Left.eq_or_weight_lt {ts rest : List Token} (h : Left rest ts) (hts : significant ts = ts) :
    rest = ts ∨ weight rest < weight ts := by
  cases h with
  | here => exact .inl rfl
  | cons ht h =>
    have hle := h.weight_le
    rw [weight_cons (ne_newline_of_significant hts) ht]
    exact .inr (by omega)

theorem weight_significant (ts : List Token) : weight (significant ts) = weight ts := by
  induction ts with
  | nil => rfl
  | cons t ts ih =>
    by_cases hline : t.kind = .newline
    · rw [significant_cons hline, weight_cons_newline hline, ih]
    · rw [significant_cons_of_ne hline]

/-- The next token is counted unless it is the end of the text. -/
theorem weight_afterNext {ts : List Token} (h : (peek ts).kind ≠ .eof) :
    weight (afterNext ts) + 1 = weight ts := by
  cases hs : significant ts with
  | nil => simp [peek, hs, Token.beyond] at h
  | cons t rest =>
    rw [peek_eq_of_significant hs] at h
    rw [afterNext_of_significant hs h, ← weight_significant ts, hs,
      weight_cons (ne_newline_of_significant hs) h]

/-- A statement that stopped at its first token is passed over. -/
theorem weight_resume_lt {inBlock : Bool} {ts : List Token} (hts : significant ts = ts)
    (hend : endsStatements inBlock (peek ts).kind = false) :
    weight (resume inBlock ts) < weight ts := by
  cases ts with
  | nil => cases hend
  | cons t rest =>
    have hline := ne_newline_of_significant hts
    rw [peek_cons_of_ne hline] at hend
    have heof : t.kind ≠ .eof := by
      intro hk
      rw [hk] at hend
      cases hend
    have hwithin := (left_resumeWithin inBlock rest).weight_le
    rw [weight_cons hline heof]
    simp only [resume]
    split
    · next hk => exact absurd hk hline
    · next hk => exact absurd hk heof
    · next hk =>
      rw [hk, endsStatements] at hend
      rw [hend, if_neg (by decide)]
      rw [hend] at hwithin
      omega
    · omega

end Parser

end Easel
