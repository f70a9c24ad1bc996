import Easel.Program.Parser.Stmt
import Mathlib.Data.List.DropRight
import Mathlib.Tactic.Common

/-!
# What parsers pass and what they leave

Where a parser goes on, tokens at the front of its list are dropped (`Left`), and those that it
drops on the way to a result without a report could be passed (`Passed`), that is, none is unknown
and a name follows every point.  Statements that are read without a fault are read to their end
(`endsStatements_rest`).
-/

namespace Easel.Parser

variable {α β : Type}

/-! ## Running parsers -/

theorem bind_of_ok {p : Parser α} {f : α → Parser β} {ts : List Token} {a : α}
    (h : (p ts).result = .ok a) :
    (p >>= f) ts = ⟨(f a (p ts).rest).result, (p ts).reported ++ (f a (p ts).rest).reported,
      (f a (p ts).rest).rest⟩ := by
  show andThen p f ts = _
  simp only [andThen, h]

theorem bind_of_error {p : Parser α} {f : α → Parser β} {ts : List Token} {fault : Fault}
    (h : (p ts).result = .error fault) :
    (p >>= f) ts = ⟨.error fault, (p ts).reported, (p ts).rest⟩ := by
  show andThen p f ts = _
  simp only [andThen, h]

theorem exists_ok_of_bind {p : Parser α} {f : α → Parser β} {ts : List Token} {b : β}
    (h : ((p >>= f) ts).result = .ok b) : ∃ a, (p ts).result = .ok a := by
  cases hp : (p ts).result with
  | error fault =>
    rw [bind_of_error hp] at h
    cases h
  | ok a => exact ⟨a, rfl⟩

theorem pure_apply (a : α) (ts : List Token) : (pure a : Parser α) ts = ⟨.ok a, [], ts⟩ := rfl

theorem look_bind (f : Token → Parser α) (ts : List Token) : (look >>= f) ts = f (peek ts) ts := rfl

theorem lookHere_bind (f : Token → Parser α) (ts : List Token) :
    (lookHere >>= f) ts = f (ts.headD .beyond) ts := rfl

theorem discard_bind (g : List Token → List Token) (f : Unit → Parser α) (ts : List Token) :
    (discard g >>= f) ts = f () (g ts) := rfl

theorem report_bind (fault : Fault) (f : Unit → Parser α) (ts : List Token) :
    (report fault >>= f) ts = ⟨(f () ts).result, fault :: (f () ts).reported, (f () ts).rest⟩ := rfl

theorem skipLineEnds_bind (f : Unit → Parser α) (ts : List Token) :
    (skipLineEnds >>= f) ts = f () (significant ts) := rfl

theorem attempt_bind (p : Parser α) (f : Except Fault α → Parser β) (ts : List Token) :
    (attempt p >>= f) ts =
      let o := f (p ts).result (p ts).rest
      ⟨o.result, (p ts).reported ++ o.reported, o.rest⟩ := rfl

theorem attempt_bind_of_ok {p : Parser α} {f : Except Fault α → Parser β} {ts : List Token} {a : α}
    (h : (p ts).result = .ok a) : (attempt p >>= f) ts = (p >>= fun a => f (.ok a)) ts := by
  rw [attempt_bind, bind_of_ok h, h]

/-! ## Next tokens -/

theorem peek_eq_of_significant {ts rest : List Token} {t : Token} (h : significant ts = t :: rest) :
    peek ts = t := by
  simp [peek, h]

theorem significant_cons_of_ne {t : Token} (h : t.kind ≠ .newline) (ts : List Token) :
    significant (t :: ts) = t :: ts :=
  List.dropWhile_cons_of_neg (by simpa using h)

theorem significant_cons {t : Token} (h : t.kind = .newline) (ts : List Token) :
    significant (t :: ts) = significant ts :=
  List.dropWhile_cons_of_pos (by simpa using h)

theorem ne_newline_of_significant {ts rest : List Token} {t : Token}
    (h : significant ts = t :: rest) : t.kind ≠ .newline := by
  intro hk
  have hhead := List.head?_dropWhile_not (fun t : Token => t.kind == .newline) ts
  rw [show ts.dropWhile (fun t => t.kind == .newline) = t :: rest from h] at hhead
  simp [hk] at hhead

theorem peek_cons_of_ne {t : Token} (h : t.kind ≠ .newline) (ts : List Token) :
    peek (t :: ts) = t :=
  peek_eq_of_significant (significant_cons_of_ne h ts)

theorem significant_significant (ts : List Token) : significant (significant ts) = significant ts :=
  List.dropWhile_idempotent _ ts

theorem peek_significant (ts : List Token) : peek (significant ts) = peek ts := by
  rw [peek, significant_significant, peek]

theorem afterNext_of_significant {ts rest : List Token} {t : Token} (h : significant ts = t :: rest)
    (hk : t.kind ≠ .eof) : afterNext ts = rest := by
  rw [afterNext, h]
  exact if_neg hk

/-! ## Dropped tokens -/

/-- `rest` is left of a list once tokens at its front are dropped, the end of the text never. -/
inductive Left (rest : List Token) : List Token → Prop
  | here : Left rest rest
  | cons {t : Token} {ts : List Token} (ht : t.kind ≠ .eof) (h : Left rest ts) : Left rest (t :: ts)

namespace Left

variable {ts rest rest' : List Token}

theorem trans (h : Left rest ts) (h' : Left rest' rest) : Left rest' ts := by
  induction h with
  | here => exact h'
  | cons ht _ ih => exact .cons ht ih

theorem suffix (h : Left rest ts) : rest <:+ ts := by
  induction h with
  | here => exact List.suffix_rfl
  | cons _ _ ih => exact ih.trans (List.suffix_cons _ _)

theorem mem (h : Left rest ts) {t : Token} (ht : t ∈ rest) : t ∈ ts := h.suffix.mem ht

/-- The end of the text is never dropped. -/
theorem mem_of_eof (h : Left rest ts) {t : Token} (ht : t ∈ ts) (hk : t.kind = .eof) : t ∈ rest := by
  induction h with
  | here => exact ht
  | cons hne _ ih =>
    rcases List.mem_cons.1 ht with rfl | ht
    · exact absurd hk hne
    · exact ih ht

theorem dropWhile {p : Token → Bool} (hp : ∀ t, p t = true → t.kind ≠ .eof) (ts : List Token) :
    Left (ts.dropWhile p) ts := by
  induction ts with
  | nil => exact .here
  | cons t ts ih =>
    rw [List.dropWhile_cons]
    split_ifs with ht
    · exact .cons (hp t ht) ih
    · exact .here

end Left

theorem left_significant (ts : List Token) : Left (significant ts) ts :=
  .dropWhile (by simp +contextual) ts

theorem left_toCommand (ts : List Token) : Left (toCommand ts) ts :=
  .dropWhile (fun t ht hk => by simp [hk] at ht) ts

theorem left_afterNext (ts : List Token) : Left (afterNext ts) ts := by
  refine (left_significant ts).trans ?_
  unfold afterNext
  cases significant ts with
  | nil => exact .here
  | cons t rest =>
    dsimp only
    split_ifs with hk
    · exact .here
    · exact .cons hk .here

theorem left_resumeWithin (inBlock : Bool) (ts : List Token) : Left (resumeWithin inBlock ts) ts := by
  fun_induction resumeWithin inBlock ts with
  | case1 => exact .here
  | case2 => exact .here
  | case3 t rest hk => exact .cons (by simp [hk]) (left_significant rest)
  | case4 => exact .here
  | case5 t rest hk _ ih => exact .cons (by simp [hk]) ih
  | case6 => exact .here
  | case7 t rest word hk _ ih => exact .cons (by simp [hk]) ih
  | case8 t rest heof _ _ _ ih => exact .cons heof ih

theorem left_resume (inBlock : Bool) (ts : List Token) : Left (resume inBlock ts) ts := by
  cases ts with
  | nil => exact .here
  | cons t rest =>
    have hwithin := left_resumeWithin inBlock rest
    simp only [resume]
    split
    · next hk => exact .cons (by simp [hk]) (left_significant rest)
    · exact .here
    · next hk =>
      split_ifs
      · exact .here
      · exact .cons (by simp [hk]) hwithin
    · next _ heof _ => exact .cons heof hwithin

theorem significant_suffix (ts : List Token) : significant ts <:+ ts := (left_significant ts).suffix

theorem afterNext_suffix (ts : List Token) : afterNext ts <:+ ts := (left_afterNext ts).suffix

theorem toCommand_suffix (ts : List Token) : toCommand ts <:+ ts := (left_toCommand ts).suffix

theorem resumeWithin_suffix (inBlock : Bool) (ts : List Token) : resumeWithin inBlock ts <:+ ts :=
  (left_resumeWithin inBlock ts).suffix

theorem resume_suffix (inBlock : Bool) (ts : List Token) : resume inBlock ts <:+ ts :=
  (left_resume inBlock ts).suffix

/-- The next token is consumed unless it is the end of the text. -/
theorem length_afterNext_lt {ts : List Token} (h : (peek ts).kind ≠ .eof) :
    (afterNext ts).length < ts.length := by
  have hle := (significant_suffix ts).length_le
  cases hs : significant ts with
  | nil => simp [peek, hs, Token.beyond] at h
  | cons t rest =>
    rw [peek_eq_of_significant hs] at h
    simp only [hs, List.length_cons] at hle
    simp only [afterNext, hs, if_neg h]
    omega

/-! ## Passed tokens -/

/-- Whether a token of this kind may be passed by itself: an unknown one never may, and a point only
before a name. -/
def passable : Token.Kind → Bool
  | .unknown | .dot | .newline => false
  | _ => true

/-- The tokens before `rest` can be passed without a fault: none is unknown, and a name comes next
after a point. -/
inductive Passed (rest : List Token) : List Token → Prop
  | here : Passed rest rest
  | cons {t : Token} {ts : List Token} (hunknown : t.kind ≠ .unknown)
      (hdot : t.kind = .dot → (peek ts).kind = .identifier) (h : Passed rest ts) :
      Passed rest (t :: ts)

theorem Passed.trans {ts rest rest' : List Token} (h : Passed rest ts) (h' : Passed rest' rest) :
    Passed rest' ts := by
  induction h with
  | here => exact h'
  | cons hunknown hdot _ ih => exact .cons hunknown hdot ih

theorem passed_significant (ts : List Token) : Passed (significant ts) ts := by
  induction ts with
  | nil => exact .here
  | cons t ts ih =>
    by_cases hk : t.kind = .newline
    · rw [significant_cons hk]
      exact .cons (by simp [hk]) (by simp [hk]) ih
    · rw [significant_cons_of_ne hk]
      exact .here

theorem passed_afterNext {ts : List Token} (hunknown : (peek ts).kind ≠ .unknown)
    (hdot : (peek ts).kind = .dot → (peek (afterNext ts)).kind = .identifier) :
    Passed (afterNext ts) ts := by
  refine (passed_significant ts).trans ?_
  cases hs : significant ts with
  | nil =>
    rw [afterNext, hs]
    exact .here
  | cons t rest =>
    rw [peek_eq_of_significant hs] at hunknown hdot
    by_cases hk : t.kind = .eof
    · rw [afterNext, hs]
      dsimp only
      rw [if_pos hk]
      exact .here
    · rw [afterNext_of_significant hs hk] at hdot ⊢
      exact .cons hunknown hdot .here

theorem passed_afterNext_of_passable {ts : List Token} (h : passable (peek ts).kind = true) :
    Passed (afterNext ts) ts := by
  refine passed_afterNext ?_ ?_ <;> intro hk <;> rw [hk] at h <;> cases h

/-- A token at the very front comes next if it is no line end. -/
theorem peek_eq_headD {ts : List Token} (h : (ts.headD .beyond).kind ≠ .newline) :
    peek ts = ts.headD .beyond := by
  cases ts with
  | nil => rfl
  | cons t ts => exact peek_cons_of_ne h ts

theorem kind_of_expect_ok {kind : Token.Kind} {expected : String} {ts : List Token} {t : Token}
    (h : (expect kind expected ts).result = .ok t) : (peek ts).kind = kind := by
  by_contra hk
  rw [expect, look_bind, if_neg hk] at h
  cases h

theorem kind_of_isWord {word : String} {t : Token} (h : isWord word t = true) :
    t.kind = .identifier := by
  simp only [isWord, Bool.and_eq_true, beq_iff_eq] at h
  exact h.1

theorem passable_of_leaf? {t : Token} {e : Expr} (h : leaf? t = some e) :
    passable t.kind = true := by
  unfold leaf? at h
  split at h <;> simp_all [passable]

/-! ## One statement after another -/

/-- If the parser succeeds on `ts`, it leaves fewer tokens. -/
def ConsumesAt (ts : List Token) (p : Parser α) : Prop :=
  ∀ a, (p ts).result = .ok a → (p ts).rest.length < ts.length

/-- The parser leaves fewer tokens than it was given if it succeeds. -/
def Consumes (p : Parser α) : Prop := ∀ ts, ConsumesAt ts p

section StatementList

variable {inBlock : Bool} {one : Parser Stmt} {ts : List Token}

theorem statementList_of_ends (h : endsStatements inBlock (peek ts).kind = true) (k : Nat) :
    statementList inBlock one k ts = ⟨.ok [], [], ts⟩ := by
  cases k with
  | zero => rfl
  | succ k =>
    rw [statementList, look_bind, if_pos h]
    rfl

theorem statementList_of_ok (h : endsStatements inBlock (peek ts).kind = false) {s : Stmt}
    (hs : (one (significant ts)).result = .ok s) (k : Nat) :
    statementList inBlock one (k + 1) ts =
      let first := one (significant ts)
      let more := statementList inBlock one k first.rest
      ⟨more.result.map (s :: ·), first.reported ++ more.reported, more.rest⟩ := by
  rw [statementList, look_bind, if_neg (by simp [h]), skipLineEnds_bind, attempt_bind, hs]
  dsimp only
  cases hm : (statementList inBlock one k (one (significant ts)).rest).result with
  | error fault =>
    rw [bind_of_error hm]
    rfl
  | ok list =>
    rw [bind_of_ok hm, pure_apply]
    simp [Except.map]

theorem statementList_of_error (h : endsStatements inBlock (peek ts).kind = false) {fault : Fault}
    (hs : (one (significant ts)).result = .error fault) (k : Nat) :
    statementList inBlock one (k + 1) ts =
      let first := one (significant ts)
      let more := statementList inBlock one k (resume inBlock first.rest)
      ⟨more.result, first.reported ++ fault :: more.reported, more.rest⟩ := by
  rw [statementList, look_bind, if_neg (by simp [h]), skipLineEnds_bind, attempt_bind, hs]
  rfl

/-- A fault in a statement is reported, so statement after statement is read in any case. -/
theorem exists_statementList_eq_ok (inBlock : Bool) (one : Parser Stmt) :
    ∀ k ts, ∃ b, (statementList inBlock one k ts).result = .ok b
  | 0, _ => ⟨[], rfl⟩
  | k + 1, ts => by
    cases hend : endsStatements inBlock (peek ts).kind with
    | true => exact ⟨[], by rw [statementList_of_ends hend]⟩
    | false =>
      cases hr : (one (significant ts)).result with
      | ok s =>
        obtain ⟨b, hb⟩ := exists_statementList_eq_ok inBlock one k (one (significant ts)).rest
        refine ⟨s :: b, ?_⟩
        rw [statementList_of_ok hend hr]
        dsimp only
        rw [hb]
        rfl
      | error fault =>
        rw [statementList_of_error hend hr]
        exact exists_statementList_eq_ok inBlock one k _

/-- If no fault is reported, statements are read up to the end of their block or program. -/
theorem endsStatements_rest (hc : Consumes one) {k : Nat} (hk : ts.length < k)
    (hr : (statementList inBlock one k ts).reported = []) :
    endsStatements inBlock (peek (statementList inBlock one k ts).rest).kind = true := by
  induction k generalizing ts with
  | zero => omega
  | succ k ih =>
    cases hend : endsStatements inBlock (peek ts).kind with
    | true => rwa [statementList_of_ends hend]
    | false =>
      cases hs : (one (significant ts)).result with
      | error fault =>
        rw [statementList_of_error hend hs] at hr
        simp at hr
      | ok s =>
        have hlt := (hc _ s hs).trans_le (significant_suffix ts).length_le
        rw [statementList_of_ok hend hs] at hr ⊢
        exact ih (by omega) (List.append_eq_nil_iff.1 hr).2

end StatementList

end Easel.Parser
