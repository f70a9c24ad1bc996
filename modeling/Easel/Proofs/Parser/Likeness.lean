import Easel.Proofs.Parser.Rest
import Easel.Proofs.Program.Relocate
import Mathlib.Data.List.Forall2

/-!
# One parser on two token lists

A `Likeness` relates token lists on which parsers behave alike.  It is used in two ways: for two
layouts of one program, and for a text that is cut off after a line against the same text with more
lines behind it.  In the second case the first run may come to the end of its text where the second
goes on; a run that fails there is lost (`Lost`) and nothing is said about the other one.

A parser that does alike on like lists is a simulation of itself (`Sim`); it is `Firm` if it also
needs a token.  A parser that stops quietly at the end of its list is only an `OpenSim`, and what
follows it has to need a token (`OpenSim.bind`).
-/

namespace Easel.Parser

variable {α β γ δ : Type}

/-- Whether a token of this kind closes a line. -/
def closesLine : Token.Kind → Bool
  | .newline | .eof => true
  | _ => false

/-- A relation between token lists that parsers respect. -/
structure Likeness where
  /-- What is compared of a position. -/
  place : Position → Position
  /-- Which tokens are alike. -/
  token : Token → Token → Prop
  /-- Which lists are alike. -/
  list : List Token → List Token → Prop
  /-- The first list has come to an end that the second may go beyond. -/
  ended : List Token → Prop
  /-- The fault was raised at such an end. -/
  final : Fault → Prop
  kind_eq : ∀ {t t'}, token t t' → t.kind = t'.kind
  text_eq : ∀ {t t'}, token t t' → t.text = t'.text
  place_eq : ∀ {t t'}, token t t' → place t.position = place t'.position
  token_peek : ∀ {ts ts'}, list ts ts' → ¬ ended ts → token (peek ts) (peek ts')
  token_head : ∀ {ts ts'}, list ts ts' → token (ts.headD .beyond) (ts'.headD .beyond) ∨
    closesLine (ts.headD .beyond).kind = true ∧ closesLine (ts'.headD .beyond).kind = true
  list_afterNext : ∀ {ts ts'}, list ts ts' → ¬ ended ts → list (afterNext ts) (afterNext ts')
  list_significant : ∀ {ts ts'}, list ts ts' → ¬ ended ts → list (significant ts) (significant ts')
  list_resume : ∀ inBlock {ts ts'}, list ts ts' →
    ended (resume inBlock ts) ∨ list (resume inBlock ts) (resume inBlock ts')
  list_toCommand : ∀ {ts ts'}, list ts ts' →
    ended (toCommand ts) ∨ list (toCommand ts) (toCommand ts')
  kind_peek_of_ended : ∀ {ts}, ended ts → (peek ts).kind = .eof
  final_missing : ∀ {ts} expected, ended ts → final ⟨(peek ts).position, .missing expected (peek ts)⟩
  final_unexpectedEnd : ∀ {ts}, ended ts → final ⟨(peek ts).position, .unexpectedEnd⟩
  final_exhausted : ∀ {ts}, ended ts → final ⟨(peek ts).position, .exhausted⟩
  /-- What may follow a complete statement does not stand where the first list has ended. -/
  not_optional : ∀ {ts ts'}, list ts ts' → ended ts →
    (peek ts').kind ≠ .semicolon ∧ (peek ts').kind ≠ .keyword .elseKw

namespace Likeness

variable (L : Likeness)

/-! ## Outcomes -/

/-- Problems with like tokens. -/
inductive ProblemAlike : Problem → Problem → Prop
  | missing (expected : String) {t t' : Token} (h : L.token t t') :
      ProblemAlike (.missing expected t) (.missing expected t')
  | unknownCommand {t t' : Token} (h : L.token t t') :
      ProblemAlike (.unknownCommand t) (.unknownCommand t')
  | refl (p : Problem) : ProblemAlike p p

/-- Faults with like problems at places that compare equal. -/
structure FaultAlike (f f' : Fault) : Prop where
  position : L.place f.position = L.place f'.position
  problem : L.ProblemAlike f.problem f'.problem

/-- Both results are values related by `V`, or both are like faults. -/
inductive ResultAlike (V : α → β → Prop) : Except Fault α → Except Fault β → Prop
  | ok {a : α} {b : β} (h : V a b) : ResultAlike V (.ok a) (.ok b)
  | error {f f' : Fault} (h : L.FaultAlike f f') : ResultAlike V (.error f) (.error f')

/-- Outcomes with like results, reports and rests. -/
structure OutcomeAlike (V : α → β → Prop) (o : Outcome α) (o' : Outcome β) : Prop where
  result : L.ResultAlike V o.result o'.result
  reported : List.Forall₂ L.FaultAlike o.reported o'.reported
  rest : L.list o.rest o'.rest

/-- The run failed at the end of its list, or reported a fault that was raised there. -/
def Lost (o : Outcome α) : Prop :=
  (∃ f, o.result = .error f ∧ L.final f) ∨ ∃ f ∈ o.reported, L.final f

/-- On two given lists the first parser is lost or the second does alike. -/
def SimAt (V : α → β → Prop) (ts ts' : List Token) (p : Parser α) (p' : Parser β) : Prop :=
  L.Lost (p ts) ∨ L.OutcomeAlike V (p ts) (p' ts')

/-- On like lists the first parser is lost or the second does alike. -/
def Sim (V : α → β → Prop) (p : Parser α) (p' : Parser β) : Prop :=
  ∀ ts ts', L.list ts ts' → L.SimAt V ts ts' p p'

/-- As `SimAt`, but the first parser may also stop at the end of its list without a fault. -/
def OpenSimAt (V : α → β → Prop) (ts ts' : List Token) (p : Parser α) (p' : Parser β) : Prop :=
  L.SimAt V ts ts' p p' ∨ L.ended (p ts).rest ∧ ∃ a, (p ts).result = .ok a

/-- As `Sim`, but the first parser may also stop at the end of its list without a fault. -/
def OpenSim (V : α → β → Prop) (p : Parser α) (p' : Parser β) : Prop :=
  ∀ ts ts', L.list ts ts' → L.OpenSimAt V ts ts' p p'

/-- The parser is lost wherever its list has ended. -/
def FailsAtEnd (p : Parser α) : Prop := ∀ ts, L.ended ts → L.Lost (p ts)

/-- The parser does alike on like lists and needs a token. -/
structure Firm (V : α → α → Prop) (p : Parser α) : Prop where
  sim : L.Sim V p p
  failsAtEnd : L.FailsAtEnd p

variable {L} {V : α → β → Prop} {W : γ → δ → Prop} {U : α → α → Prop}

theorem FaultAlike.of_token {t t' : Token} (h : L.token t t') {p p' : Problem}
    (hp : L.ProblemAlike p p') : L.FaultAlike ⟨t.position, p⟩ ⟨t'.position, p'⟩ :=
  ⟨L.place_eq h, hp⟩

theorem lexeme_eq {t t' : Token} (h : L.token t t') : t.lexeme = t'.lexeme := by
  rw [Token.lexeme, Token.lexeme, L.kind_eq h, L.text_eq h]

/-! ## Composition -/

theorem simAt_pure {a : α} {b : β} (h : V a b) {ts ts' : List Token} (hts : L.list ts ts') :
    L.SimAt V ts ts' (pure a) (pure b) :=
  .inr ⟨.ok h, .nil, hts⟩

theorem sim_pure {a : α} {b : β} (h : V a b) : L.Sim V (pure a) (pure b) :=
  fun _ _ => simAt_pure h

theorem Lost.bind {p : Parser α} {f : α → Parser γ} {ts : List Token} (h : L.Lost (p ts)) :
    L.Lost ((p >>= f) ts) := by
  cases hr : (p ts).result with
  | error fault =>
    rw [bind_of_error hr]
    exact h.imp_left fun ⟨g, hg, hf⟩ => ⟨g, by rw [Except.error.inj (hr.symm.trans hg)], hf⟩
  | ok a =>
    rw [bind_of_ok hr]
    rcases h with ⟨g, hg, -⟩ | ⟨g, hg, hf⟩
    · rw [hr] at hg
      cases hg
    · exact .inr ⟨g, List.mem_append_left _ hg, hf⟩

theorem Lost.of_bind {p : Parser α} {f : α → Parser γ} {ts : List Token} {a : α}
    (ha : (p ts).result = .ok a) (h : L.Lost (f a (p ts).rest)) : L.Lost ((p >>= f) ts) := by
  rw [bind_of_ok ha]
  exact h.imp_right fun ⟨g, hg, hf⟩ => ⟨g, List.mem_append_right _ hg, hf⟩

/-- Parsers that do alike at given lists go on alike, where the first part gives values. -/
theorem OutcomeAlike.bind {p : Parser α} {p' : Parser β} {f : α → Parser γ} {f' : β → Parser δ}
    {ts ts' : List Token} {a : α} {b : β} (hp : L.OutcomeAlike V (p ts) (p' ts'))
    (ha : (p ts).result = .ok a) (hb : (p' ts').result = .ok b)
    (hf : L.SimAt W (p ts).rest (p' ts').rest (f a) (f' b)) :
    L.SimAt W ts ts' (p >>= f) (p' >>= f') := by
  rcases hf with hlost | ⟨hresult, hreported, hrest⟩
  · exact .inl (.of_bind ha hlost)
  · refine .inr ?_
    rw [bind_of_ok ha, bind_of_ok hb]
    exact ⟨hresult, List.rel_append hp.reported hreported, hrest⟩

/-- At given lists a composition does alike, or its first part gives related values and like
rests. -/
theorem SimAt.bind_cases {p : Parser α} {p' : Parser β} {ts ts' : List Token}
    (hp : L.SimAt V ts ts' p p') (f : α → Parser γ) (f' : β → Parser δ) :
    L.SimAt W ts ts' (p >>= f) (p' >>= f') ∨ ∃ a b, V a b ∧ (p ts).result = .ok a ∧
      (p' ts').result = .ok b ∧ L.OutcomeAlike V (p ts) (p' ts') := by
  rcases hp with hlost | halike
  · exact .inl (.inl hlost.bind)
  have hresult := halike.result
  generalize ha : (p ts).result = r at hresult
  generalize hb : (p' ts').result = r' at hresult
  cases hresult with
  | error hfault =>
    refine .inl (.inr ?_)
    rw [bind_of_error ha, bind_of_error hb]
    exact ⟨.error hfault, halike.reported, halike.rest⟩
  | ok hab => exact .inr ⟨_, _, hab, rfl, rfl, halike⟩

/-- Composition at given lists, where the second part may come to an open end. -/
theorem SimAt.bindOpen {p : Parser α} {p' : Parser β} {f : α → Parser γ} {f' : β → Parser δ}
    {ts ts' : List Token} (hp : L.SimAt V ts ts' p p')
    (hf : ∀ a b, V a b → L.OpenSim W (f a) (f' b)) :
    L.OpenSimAt W ts ts' (p >>= f) (p' >>= f') := by
  rcases hp.bind_cases f f' with hsim | ⟨a, b, hab, ha, hb, halike⟩
  · exact .inl hsim
  rcases hf a b hab _ _ halike.rest with hsim | ⟨hended, c, hc⟩
  · exact .inl (halike.bind ha hb hsim)
  · refine .inr ?_
    rw [bind_of_ok ha]
    exact ⟨hended, c, hc⟩

theorem SimAt.bind {p : Parser α} {p' : Parser β} {f : α → Parser γ} {f' : β → Parser δ}
    {ts ts' : List Token} (hp : L.SimAt V ts ts' p p')
    (hf : ∀ a b, V a b → L.Sim W (f a) (f' b)) : L.SimAt W ts ts' (p >>= f) (p' >>= f') := by
  rcases hp.bind_cases f f' with hsim | ⟨a, b, hab, ha, hb, halike⟩
  · exact hsim
  · exact halike.bind ha hb (hf a b hab _ _ halike.rest)

theorem Sim.bind {p : Parser α} {p' : Parser β} {f : α → Parser γ} {f' : β → Parser δ}
    (hp : L.Sim V p p') (hf : ∀ a b, V a b → L.Sim W (f a) (f' b)) :
    L.Sim W (p >>= f) (p' >>= f') :=
  fun ts ts' h => (hp ts ts' h).bind hf

/-- What follows an open end has to fail there. -/
theorem OpenSim.bind {p : Parser α} {p' : Parser β} {f : α → Parser γ} {f' : β → Parser δ}
    (hp : L.OpenSim V p p') (hf : ∀ a b, V a b → L.Sim W (f a) (f' b))
    (hend : ∀ a, L.FailsAtEnd (f a)) : L.Sim W (p >>= f) (p' >>= f') := by
  intro ts ts' h
  rcases hp ts ts' h with hsim | ⟨hended, a, ha⟩
  · exact hsim.bind hf
  · exact .inl (.of_bind ha (hend a _ hended))

theorem Sim.open {p : Parser α} {p' : Parser β} (h : L.Sim V p p') : L.OpenSim V p p' :=
  fun ts ts' hts => .inl (h ts ts' hts)

theorem OpenSim.map {p : Parser α} {p' : Parser β} {f : α → γ} {f' : β → δ}
    (hp : L.OpenSim V p p') (hf : ∀ a b, V a b → W (f a) (f' b)) :
    L.OpenSim W (p >>= fun a => pure (f a)) (p' >>= fun b => pure (f' b)) := by
  intro ts ts' h
  rcases hp ts ts' h with hsim | ⟨hended, a, ha⟩
  · exact .inl (hsim.bind fun a b hab => sim_pure (hf a b hab))
  · refine .inr ?_
    rw [bind_of_ok ha]
    exact ⟨hended, _, rfl⟩

theorem FailsAtEnd.bind {p : Parser α} {f : α → Parser γ} (h : L.FailsAtEnd p) :
    L.FailsAtEnd (p >>= f) :=
  fun ts hts => (h ts hts).bind

theorem simAt_failAt {t t' : Token} (h : L.token t t') {p p' : Problem}
    (hp : L.ProblemAlike p p') {ts ts' : List Token} (hts : L.list ts ts') :
    L.SimAt V ts ts' (failAt t p) (failAt t' p') :=
  .inr ⟨.error (.of_token h hp), .nil, hts⟩

/-! ## Looking at the next token -/

theorem lost_missing {ts : List Token} (h : L.ended ts) (expected : String) :
    L.Lost ((failAt (peek ts) (.missing expected (peek ts)) : Parser α) ts) :=
  .inl ⟨_, rfl, L.final_missing expected h⟩

theorem lost_unexpectedEnd {ts : List Token} (h : L.ended ts) :
    L.Lost ((failAt (peek ts) .unexpectedEnd : Parser α) ts) :=
  .inl ⟨_, rfl, L.final_unexpectedEnd h⟩

theorem Firm.bind {p : Parser α} {f : α → Parser γ} {W : γ → γ → Prop} (hp : L.Firm U p)
    (hf : ∀ a b, U a b → L.Sim W (f a) (f b)) : L.Firm W (p >>= f) :=
  ⟨hp.sim.bind hf, hp.failsAtEnd.bind⟩

/-- Decide by the next token: it is like the other one, or the first list has ended. -/
theorem sim_look {f : Token → Parser α} {f' : Token → Parser β}
    (h : ∀ ts ts' t t', L.list ts ts' → ¬ L.ended ts → L.token t t' → L.SimAt V ts ts' (f t) (f' t'))
    (hend : ∀ ts, L.ended ts → (peek ts).kind = .eof → L.Lost (f (peek ts) ts)) :
    L.Sim V (look >>= f) (look >>= f') := by
  intro ts ts' hts
  by_cases hended : L.ended ts
  · exact .inl (hend ts hended (L.kind_peek_of_ended hended))
  · exact h ts ts' _ _ hts hended (L.token_peek hts hended)

theorem firm_look {f : Token → Parser α}
    (h : ∀ ts ts' t t', L.list ts ts' → ¬ L.ended ts → L.token t t' → L.SimAt U ts ts' (f t) (f t'))
    (hend : ∀ ts, L.ended ts → (peek ts).kind = .eof → L.Lost (f (peek ts) ts)) :
    L.Firm U (look >>= f) :=
  ⟨sim_look h hend, fun ts hts => hend ts hts (L.kind_peek_of_ended hts)⟩

theorem firm_exhausted {V : α → α → Prop} : L.Firm V exhausted :=
  firm_look (fun _ _ _ _ hts _ ht => simAt_failAt ht (.refl _) hts)
    fun _ hend _ => .inl ⟨_, rfl, L.final_exhausted hend⟩

theorem simAt_afterToken {f : Unit → Parser α} {f' : Unit → Parser β} (h : L.Sim V (f ()) (f' ()))
    {ts ts' : List Token} (hts : L.list ts ts') (hend : ¬ L.ended ts) :
    L.SimAt V ts ts' (discard afterNext >>= f) (discard afterNext >>= f') :=
  h _ _ (L.list_afterNext hts hend)

theorem openSimAt_afterToken {f : Unit → Parser α} {f' : Unit → Parser β} {ts ts' : List Token}
    (h : L.OpenSimAt V (afterNext ts) (afterNext ts') (f ()) (f' ())) :
    L.OpenSimAt V ts ts' (discard afterNext >>= f) (discard afterNext >>= f') :=
  h

theorem openSimAt_skipLineEnds {f : Unit → Parser α} {f' : Unit → Parser β} {ts ts' : List Token}
    (h : L.OpenSimAt V (significant ts) (significant ts') (f ()) (f' ())) :
    L.OpenSimAt V ts ts' (skipLineEnds >>= f) (skipLineEnds >>= f') :=
  h

theorem closesLine_iff {k : Token.Kind} : closesLine k = true ↔ k = .newline ∨ k = .eof := by
  cases k <;> simp [closesLine]

/-- A list whose first token does not close a line has not ended. -/
theorem not_ended_of_head {ts : List Token} (h : closesLine (ts.headD .beyond).kind = false) :
    ¬ L.ended ts := by
  intro hend
  have hk := L.kind_peek_of_ended hend
  rw [peek_eq_headD fun he => by rw [he] at h; cases h] at hk
  rw [hk] at h
  cases h

/-- Decide by the token here: the two are alike, or both close their lines. -/
theorem sim_lookHere {f : Token → Parser α} {f' : Token → Parser β} (a : α) (b : β)
    (hline : ∀ t, t.kind = .newline ∨ t.kind = .eof → f t = pure a)
    (hline' : ∀ t, t.kind = .newline ∨ t.kind = .eof → f' t = pure b) (hab : V a b)
    (h : ∀ ts ts' t t', L.list ts ts' → L.token t t' → (closesLine t.kind = false → ¬ L.ended ts) →
      L.SimAt V ts ts' (f t) (f' t')) :
    L.Sim V (lookHere >>= f) (lookHere >>= f') := by
  intro ts ts' hts
  rcases L.token_head hts with htoken | ⟨hl, hl'⟩
  · exact h ts ts' _ _ hts htoken not_ended_of_head
  · show L.SimAt V ts ts' (f _) (f' _)
    rw [hline _ (closesLine_iff.1 hl), hline' _ (closesLine_iff.1 hl')]
    exact simAt_pure hab hts

/-! ## Tokens and names -/

theorem firm_expect {kind : Token.Kind} (hk : kind ≠ .eof) (expected : String) :
    L.Firm L.token (expect kind expected) := by
  refine firm_look (fun ts ts' t t' hts hend htoken => ?_) fun ts hend heof => ?_
  · rw [← L.kind_eq htoken]
    split_ifs
    · exact .inr ⟨.ok (L.token_peek hts hend), .nil, L.list_afterNext hts hend⟩
    · exact simAt_failAt htoken (.missing expected htoken) hts
  · rw [if_neg (by rw [heof]; exact hk.symm)]
    exact lost_missing hend expected

theorem isWord_eq (word : String) {t t' : Token} (h : L.token t t') :
    isWord word t = isWord word t' := by
  rw [isWord, isWord, L.kind_eq h, lexeme_eq h]

theorem firm_expectWord (word expected : String) :
    L.Firm (fun _ _ => True) (expectWord word expected) := by
  refine firm_look (fun ts ts' t t' hts hend htoken => ?_) fun ts hend heof => ?_
  · rw [← isWord_eq word htoken]
    split_ifs
    · exact .inr ⟨.ok trivial, .nil, L.list_afterNext hts hend⟩
    · exact simAt_failAt htoken (.missing expected htoken) hts
  · rw [if_neg (by simp [isWord, heof])]
    exact lost_missing hend expected

/-- A semicolon is skipped alike: none follows where the first list has ended. -/
theorem sim_skipSemicolon :
    L.Sim (fun _ _ => True) (skipOptional .semicolon) (skipOptional .semicolon) := by
  intro ts ts' hts
  rw [SimAt, skipOptional, look_bind, look_bind]
  by_cases hend : L.ended ts
  · rw [if_neg (by simp [L.kind_peek_of_ended hend]), if_neg (L.not_optional hts hend).1]
    exact simAt_pure trivial hts
  · rw [← L.kind_eq (L.token_peek hts hend)]
    split_ifs
    · exact .inr ⟨.ok trivial, .nil, L.list_afterNext hts hend⟩
    · exact simAt_pure trivial hts

/-- Names that are equal once their places are compared. -/
abbrev ident (L : Likeness) (id id' : Ident) : Prop := id.relocate L.place = id'.relocate L.place

theorem firm_name (expected : String) : L.Firm L.ident (name expected) :=
  (firm_expect (by decide) expected).bind fun t t' h =>
    sim_pure (by rw [ident, Ident.relocate, Ident.relocate, L.place_eq h, lexeme_eq h])

/-- The parser gives a value at the end of a text and does nothing else. -/
def Idle (p : Parser α) : Prop := ∀ ts, (peek ts).kind = .eof → ∃ a, p ts = ⟨.ok a, [], ts⟩

theorem openSimAt_of_idle {p : Parser α} {p' : Parser β} (h : Idle p) {ts ts' : List Token}
    (hend : L.ended ts) : L.OpenSimAt V ts ts' p p' := by
  obtain ⟨a, ha⟩ := h ts (L.kind_peek_of_ended hend)
  refine .inr ?_
  rw [ha]
  exact ⟨hend, a, rfl⟩

/-- Decide by the next token, and do nothing where the first list has ended. -/
theorem openSim_look {f : Token → Parser α} (hidle : Idle (look >>= f))
    (h : ∀ ts ts' t t', L.list ts ts' → ¬ L.ended ts → L.token t t' →
      L.OpenSimAt U ts ts' (f t) (f t')) :
    L.OpenSim U (look >>= f) (look >>= f) := by
  intro ts ts' hts
  by_cases hended : L.ended ts
  · exact openSimAt_of_idle hidle hended
  · exact h ts ts' _ _ hts hended (L.token_peek hts hended)

/-! ## Going on after a fault -/

/-- A fault that is handed over is one that both runs met, or the first is lost on it. -/
theorem SimAt.bindAttempt {p : Parser α} {p' : Parser β} {f : Except Fault α → Parser γ}
    {f' : Except Fault β → Parser δ} {ts ts' : List Token} (hp : L.SimAt V ts ts' p p')
    (hok : ∀ a b, V a b → L.OpenSim W (f (.ok a)) (f' (.ok b)))
    (herror : ∀ g g', L.FaultAlike g g' → L.OpenSim W (f (.error g)) (f' (.error g')))
    (hfinal : ∀ g rest, L.final g → L.Lost (f (.error g) rest)) :
    L.OpenSimAt W ts ts' (attempt p >>= f) (attempt p' >>= f') := by
  rcases hp with (⟨g, hg, hfault⟩ | ⟨g, hg, hfault⟩) | ⟨hresult, hreported, hrest⟩
  · refine .inl (.inl (Lost.of_bind rfl ?_))
    rw [hg]
    exact hfinal g _ hfault
  · exact .inl (.inl (Lost.bind (.inr ⟨g, hg, hfault⟩)))
  · have hattempt : L.SimAt (L.ResultAlike V) ts ts' (attempt p) (attempt p') :=
      .inr ⟨.ok hresult, hreported, hrest⟩
    refine hattempt.bindOpen fun r r' hr => ?_
    cases hr with
    | ok hab => exact hok _ _ hab
    | error hfault => exact herror _ _ hfault

theorem openSimAt_report {g g' : Fault} (hg : L.FaultAlike g g') {f : Unit → Parser γ}
    {f' : Unit → Parser δ} {ts ts' : List Token} (h : L.OpenSimAt W ts ts' (f ()) (f' ())) :
    L.OpenSimAt W ts ts' (report g >>= f) (report g' >>= f') := by
  rcases h with (hlost | ⟨hresult, hreported, hrest⟩) | hended
  · exact .inl (.inl (.of_bind rfl hlost))
  · exact .inl (.inr ⟨hresult, .cons hg hreported, hrest⟩)
  · exact .inr hended

theorem lost_report {g : Fault} (hg : L.final g) {f : Unit → Parser γ} {ts : List Token} :
    L.Lost ((report g >>= f) ts) :=
  Lost.bind (.inr ⟨g, List.mem_singleton_self g, hg⟩)

/-- Tokens are dropped alike, or up to the end of the first list. -/
theorem openSim_discard {drop : List Token → List Token} {f : Unit → Parser α}
    (hdrop : ∀ {ts ts'}, L.list ts ts' → L.ended (drop ts) ∨ L.list (drop ts) (drop ts'))
    (hidle : Idle (f ())) (h : L.OpenSim U (f ()) (f ())) :
    L.OpenSim U (discard drop >>= f) (discard drop >>= f) := by
  intro ts ts' hts
  rcases hdrop hts with hend | hrest
  · exact openSimAt_of_idle hidle hend
  · exact h _ _ hrest

/-! ## Lists of items -/

section Items

variable {item : Parser α}

theorem idle_moreItems (n : Nat) : Idle (moreItems item (n + 1)) := by
  intro ts h
  rw [moreItems, look_bind, if_neg (by simp [h])]
  exact ⟨[], rfl⟩

theorem openSim_moreItems (h : L.Sim U item item) :
    ∀ n, L.OpenSim (List.Forall₂ U) (moreItems item n) (moreItems item n)
  | 0 => firm_exhausted.sim.open
  | n + 1 => by
    refine openSim_look (idle_moreItems n) fun ts ts' t t' hts hend htoken => ?_
    rw [← L.kind_eq htoken]
    split_ifs
    · exact (h _ _ (L.list_afterNext hts hend)).bindOpen fun a b hab =>
        (openSim_moreItems h n).map fun _ _ hrest => .cons hab hrest
    · exact .inl (simAt_pure .nil hts)

theorem openSim_items (h : L.Sim U item item) (n : Nat) :
    L.OpenSim (List.Forall₂ U) (items n item) (items n item) :=
  fun ts ts' hts => (h ts ts' hts).bindOpen fun _ _ hab =>
    (openSim_moreItems h n).map fun _ _ hrest => .cons hab hrest

theorem sim_itemsUntil (h : L.Firm U item) (n : Nat) {close : Token.Kind} (hc : close ≠ .eof)
    (expected : String) :
    L.Sim (List.Forall₂ U) (itemsUntil n item close expected)
      (itemsUntil n item close expected) := by
  refine OpenSim.bind (fun ts ts' hts => ?_)
    (fun list list' hlist => (firm_expect hc expected).sim.bind fun _ _ _ => sim_pure hlist)
    fun _ => (firm_expect hc expected).failsAtEnd.bind
  by_cases hended : L.ended ts
  · refine .inl (.inl ?_)
    rw [look_bind, if_neg (by rw [L.kind_peek_of_ended hended]; exact hc.symm)]
    exact (h.failsAtEnd ts hended).bind
  · show L.OpenSimAt _ ts ts' (if (peek ts).kind = close then pure [] else items n item)
      (if (peek ts').kind = close then pure [] else items n item)
    rw [← L.kind_eq (L.token_peek hts hended)]
    split_ifs
    · exact .inl (simAt_pure .nil hts)
    · exact openSim_items h.sim n ts ts' hts

end Items

theorem map_eq_of_forall₂ {f : α → γ} {as bs : List α}
    (h : List.Forall₂ (fun a b => f a = f b) as bs) : as.map f = bs.map f := by
  induction h with
  | nil => rfl
  | cons hab _ ih => rw [List.map_cons, List.map_cons, hab, ih]

end Likeness

end Easel.Parser
