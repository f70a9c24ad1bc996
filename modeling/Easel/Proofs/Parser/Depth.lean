import Easel.Proofs.Parser.Bound

/-!
# Counting braces

A block tells its statements that a closing brace ends them.  A bound on statements or commands stops
them quietly where it is used up; one inside of an expression or on alternatives gives a fault of its
own, which no program has (`fed_parse`).  A `Tracked` parser of statements is told nothing: it keeps
the number of open braces, which blocks raise and lower, and asks for it wherever a closing brace
may come.  It has no outcome if a bound on statements, on their nesting, on commands or on
alternatives is used up.

With bounds above the number of tokens both kinds of parser do the same, and every brace that is
opened is closed again (`tracks_statementsWithin`).  So `parse` reads its tokens as with any greater
bound (`parse_eq_of_le`).  Reading a program finishes for all tokens, at their end and outside of all
blocks, and it reports no more faults than there are tokens to pay for them (`parse_finishes`).
-/

namespace Easel.Parser

open Expr (hereditary_true)

variable {α β : Type}

/-- A parser that keeps the number of open braces, and has no outcome where a bound is used up. -/
def Tracked (α : Type) : Type := Nat → List Token → Option (Outcome α × Nat)

namespace Tracked

/-- Run `p`, and on success `f` on its value, with the braces and the tokens it left. -/
def andThen (p : Tracked α) (f : α → Tracked β) : Tracked β := fun depth ts => do
  let (first, depth) ← p depth ts
  match first.result with
  | .error fault => pure (⟨.error fault, first.reported, first.rest⟩, depth)
  | .ok a =>
    let (second, depth) ← f a depth first.rest
    pure (⟨second.result, first.reported ++ second.reported, second.rest⟩, depth)

instance : Monad Tracked where
  pure a := fun depth ts => some (⟨.ok a, [], ts⟩, depth)
  bind := andThen

/-- A parser that opens no braces. -/
instance : MonadLift Parser Tracked where
  monadLift p := fun depth ts => some (p ts, depth)

/-- The end of a bound. -/
def exhausted : Tracked α := fun _ _ => none

/-- Whether a brace is open. -/
def inBlock : Tracked Bool := fun depth ts => some (⟨.ok (0 < depth), [], ts⟩, depth)

/-- One brace more is open. -/
def enter : Tracked Unit := fun depth ts => some (⟨.ok (), [], ts⟩, depth + 1)

/-- One brace less is open. -/
def leave : Tracked Unit := fun depth ts => some (⟨.ok (), [], ts⟩, depth - 1)

/-- What stands between braces. If `p` fails, the brace stays open. -/
def braced (p : Tracked α) : Tracked α := do
  enter
  let a ← p
  leave
  pure a

/-- Run `p` and hand its fault over as a value. -/
def attempt (p : Tracked α) : Tracked (Except Fault α) := fun depth ts => do
  let (o, depth) ← p depth ts
  pure (⟨.ok o.result, o.reported, o.rest⟩, depth)

/-! ## The grammar of statements

The parsers that hold no statements and no commands are those of `Parser`. -/

def block (statements : Tracked (List Stmt)) (opening closing : String) : Tracked (List Stmt) := do
  let _ ← expect .lbrace opening
  let body ← braced statements
  let _ ← expect .rbrace closing
  pure body

def functionAfter (n : Nat) (statements : Tracked (List Stmt)) (p : Position) : Tracked Stmt := do
  let id ← name "Expected function name"
  let _ ← expect .lparen "Expected ( after function name"
  let params ← itemsUntil n (name "Expected parameter name") .rparen "Expected ) after parameters"
  let body ← block statements r"Expected { before function body"
    r"Expected } after function body"
  pure (.function p id params body)

def ifAfter (expr : Parser Expr) (statements : Tracked (List Stmt)) :
    Nat → Position → Tracked Stmt
  | 0, _ => exhausted
  | k + 1, p => do
    let cond ← expr
    let body ← block statements r"Expected { after if condition" r"Expected } after if body"
    if (← look).kind = .keyword .elseKw then
      discard afterNext
      let t ← look
      if t.kind = .keyword .ifKw then
        discard afterNext
        let nested ← ifAfter expr statements k t.position
        pure (.ifElse p cond body [nested])
      else
        let alternative ← block statements r"Expected { after else"
          r"Expected } after else body"
        pure (.ifElse p cond body alternative)
    else pure (.ifThen p cond body)

def repeatAfter (expr : Parser Expr) (statements : Tracked (List Stmt)) (p : Position) :
    Tracked Stmt := do
  let times ← expr
  let body ← block statements r"Expected { after repeat count" r"Expected } after repeat body"
  pure (.repeatLoop p times body)

def whileAfter (expr : Parser Expr) (statements : Tracked (List Stmt)) (p : Position) :
    Tracked Stmt := do
  let cond ← expr
  let body ← block statements r"Expected { after while condition" r"Expected } after while body"
  pure (.whileLoop p cond body)

def forAfter (expr : Parser Expr) (statements : Tracked (List Stmt)) (p : Position) :
    Tracked Stmt := do
  let _ ← expect .lparen "Expected ( after for"
  let init ← initClause expr
  let _ ← expect .semicolon "Expected ; after for initializer"
  let cond ← expr
  let _ ← expect .semicolon "Expected ; after for condition"
  let update ← updateClause expr
  let _ ← expect .rparen "Expected ) after for clauses"
  let body ← block statements r"Expected { after for" r"Expected } after for body"
  pure (.forLoop p init cond update body)

def sceneAfter (statements : Tracked (List Stmt)) (p : Position) : Tracked Stmt := do
  let id ← name "Expected scene name"
  let body ← block statements r"Expected { after scene name" r"Expected } after scene body"
  pure (.scene p id.name body)

def commands (n : Nat) (expr : Parser Expr) : Nat → Tracked (List Command)
  | 0 => exhausted
  | k + 1 => do
    let t ← look
    match t.kind with
    | .rbrace | .eof => pure []
    | .command kind =>
      discard afterNext
      match ← attempt (motion n expr kind) with
      | .ok m =>
        skipOptional .semicolon
        let rest ← commands n expr k
        pure (⟨t.position, m⟩ :: rest)
      | .error fault =>
        report fault
        discard toCommand
        commands n expr k
    | _ =>
      report ⟨t.position, .unknownCommand t⟩
      discard afterNext
      discard toCommand
      commands n expr k

def animateAfter (n : Nat) (expr : Parser Expr) (p : Position) : Tracked Stmt := do
  let _ ← expect .lbrace r"Expected { after animate"
  let list ← braced (commands n expr n)
  let _ ← expect .rbrace r"Expected } after animate block"
  pure (.animate p list)

def keywordStatement? (n : Nat) (expr : Parser Expr) (statements : Tracked (List Stmt))
    (p : Position) : Keyword → Option (Tracked Stmt)
  | .letKw => some do
    let b ← bindingAfter expr p
    pure (.binding b)
  | .fnKw => some (functionAfter n statements p)
  | .returnKw => some (liftM (returnAfter expr p))
  | .ifKw => some (ifAfter expr statements n p)
  | .repeatKw => some (repeatAfter expr statements p)
  | .whileKw => some (whileAfter expr statements p)
  | .forKw => some (forAfter expr statements p)
  | .importKw => some (liftM (importAfter n p))
  | .sceneKw => some (sceneAfter statements p)
  | .animateKw => some (animateAfter n expr p)
  | .elseKw | .trueKw | .falseKw | .nullKw => none

def bareStatement (n : Nat) (expr : Parser Expr) (statements : Tracked (List Stmt)) :
    Tracked Stmt := do
  let t ← look
  match t.kind with
  | .keyword word =>
    match keywordStatement? n expr statements t.position word with
    | some after =>
      discard afterNext
      after
    | none => exprStatement expr
  | _ => exprStatement expr

def statement (n : Nat) (expr : Parser Expr) (statements : Tracked (List Stmt)) :
    Tracked Stmt := do
  let s ← bareStatement n expr statements
  skipOptional .semicolon
  pure s

/-- Statement after statement. Both the end and the place to go on after a fault depend on the
braces that are open then. -/
def statementList (one : Tracked Stmt) : Nat → Tracked (List Stmt)
  | 0 => exhausted
  | k + 1 => do
    if endsStatements (← inBlock) (← look).kind then pure []
    else
      skipLineEnds
      match ← attempt one with
      | .ok s =>
        let rest ← statementList one k
        pure (s :: rest)
      | .error fault =>
        report fault
        discard (resume (← inBlock))
        statementList one k

def statementsWithin : Nat → Tracked (List Stmt)
  | 0 => exhausted
  | n + 1 => statementList (statement n (expressionWithin (n + 1)) (statementsWithin n)) n

end Tracked

/-! ## Tracking a parser -/

/-- On `ts` the tracked parser does what the parser does, and the same number of braces is open
after it. No bound of either is used up. -/
def TracksAt (depth : Nat) (ts : List Token) (t : Tracked α) (p : Parser α) : Prop :=
  t depth ts = some (p ts, depth) ∧ (p ts).Fed

namespace TracksAt

variable {depth : Nat} {ts : List Token} {t : Tracked α} {p : Parser α}

theorem lift (p : Parser α) [Unbounded p] : TracksAt depth ts (liftM p) p :=
  ⟨rfl, Unbounded.fed ts⟩

theorem pure (a : α) : TracksAt depth ts (Pure.pure a) (Pure.pure a) := ⟨rfl, Unbounded.fed ts⟩

theorem bind {u : α → Tracked β} {f : α → Parser β} (h : TracksAt depth ts t p)
    (hf : ∀ a, (p ts).result = .ok a → TracksAt depth (p ts).rest (u a) (f a)) :
    TracksAt depth ts (t >>= u) (p >>= f) := by
  obtain ⟨hrun, hfed⟩ := h
  refine ⟨?_, fed_bind hfed fun a ha => (hf a ha).2⟩
  show Tracked.andThen t u depth ts = _
  cases hr : (p ts).result with
  | error fault => simp [Tracked.andThen, hrun, hr, bind_of_error hr]
  | ok a => simp [Tracked.andThen, hrun, hr, (hf a hr).1, bind_of_ok hr]

theorem attempt (h : TracksAt depth ts t p) :
    TracksAt depth ts (Tracked.attempt t) (Parser.attempt p) := by
  obtain ⟨hrun, hfed⟩ := h
  refine ⟨?_, hfed.reported⟩
  simp [Tracked.attempt, hrun, Parser.attempt]

/-- Ask for the open braces and go on. -/
theorem inBlock {u : Bool → Tracked α} (h : TracksAt depth ts (u (0 < depth)) p) :
    TracksAt depth ts (Tracked.inBlock >>= u) p := by
  refine ⟨?_, h.2⟩
  show Tracked.andThen Tracked.inBlock u depth ts = _
  simp [Tracked.andThen, Tracked.inBlock, h.1]

/-- The brace that is opened before `p` is closed after it, since `p` does not fail. -/
theorem braced (h : TracksAt (depth + 1) ts t p) (hok : ∃ a, (p ts).result = .ok a) :
    TracksAt depth ts (Tracked.braced t) p := by
  obtain ⟨a, ha⟩ := hok
  obtain ⟨hrun, hfed⟩ := h
  refine ⟨?_, hfed⟩
  show Tracked.andThen Tracked.enter (fun _ => Tracked.andThen t fun a =>
    Tracked.andThen Tracked.leave fun _ => Pure.pure a) depth ts = _
  generalize p ts = o at hrun ha ⊢
  obtain ⟨result, reported, rest⟩ := o
  subst ha
  simp [Tracked.andThen, Tracked.enter, Tracked.leave, hrun, Pure.pure]

/-- Look at the next token and go on. -/
theorem look {u : Token → Tracked α} {f : Token → Parser α}
    (h : TracksAt depth ts (u (peek ts)) (f (peek ts))) :
    TracksAt depth ts (liftM Parser.look >>= u) (Parser.look >>= f) :=
  (lift Parser.look).bind fun _ ht => by
    cases ht
    exact h

theorem ite {c : Prop} [Decidable c] {t' : Tracked α} {p' : Parser α}
    (h : c → TracksAt depth ts t p) (h' : ¬c → TracksAt depth ts t' p') :
    TracksAt depth ts (if c then t else t') (if c then p else p') := by
  split_ifs with hc
  · exact h hc
  · exact h' hc

end TracksAt

/-- On lists of fewer than `n` tokens the tracked parser does what the parser does, and the same
number of braces is open after it. No bound of either is used up. -/
def Tracks (n depth : Nat) (t : Tracked α) (p : Parser α) : Prop :=
  ∀ ts, ts.length < n → TracksAt depth ts t p

namespace Tracks

variable {n depth : Nat} {t : Tracked α} {p : Parser α} {u : α → Tracked β} {f : α → Parser β}

theorem lift (p : Parser α) [Unbounded p] : Tracks n depth (liftM p) p := fun _ _ => .lift p

theorem ofAgree {q : Parser α} (h : AgreeBelow n p q) : Tracks n depth (liftM q) p :=
  fun ts hts => ⟨congrArg (fun o => some (o, depth)) (h ts hts).1.symm, (h ts hts).2⟩

theorem pure (a : α) : Tracks n depth (Pure.pure a) (Pure.pure a) := fun _ _ => .pure a

theorem mono {m : Nat} (h : Tracks n depth t p) (hm : m ≤ n) : Tracks m depth t p :=
  fun ts hts => h ts (hts.trans_le hm)

theorem bind {P : α → Prop} (h : Tracks n depth t p) (hs : ReadsAny P p)
    (hf : ∀ a, Tracks n depth (u a) (f a)) : Tracks n depth (t >>= u) (p >>= f) :=
  fun ts hts => (h ts hts).bind fun a _ => hf a _ ((hs.length_rest_le ts).trans_lt hts)

/-- A parser that opens no braces comes first. -/
theorem after [Unbounded p] {P : α → Prop} (hs : ReadsAny P p)
    (hf : ∀ a, Tracks n depth (u a) (f a)) : Tracks n depth (liftM p >>= u) (p >>= f) :=
  (lift p).bind hs hf

/-- So it is if the parsers that come first agree. -/
theorem afterAgree {P : α → Prop} {q : Parser α} (h : AgreeBelow n p q) (hs : ReadsAny P p)
    (hf : ∀ a, Tracks n depth (u a) (f a)) : Tracks n depth (liftM q >>= u) (p >>= f) :=
  (ofAgree h).bind hs hf

theorem bindAttempt {u : Except Fault α → Tracked β} {f : Except Fault α → Parser β}
    {P : α → Prop} (h : Tracks n depth t p) (hs : ReadsAny P p)
    (hf : ∀ r, (∀ {fault}, r = .error fault → fault.problem ≠ .exhausted) →
      Tracks n depth (u r) (f r)) :
    Tracks n depth (Tracked.attempt t >>= u) (attempt p >>= f) := by
  intro ts hts
  refine (h ts hts).attempt.bind fun r hr => hf r ?_ _ ((hs.length_rest_le ts).trans_lt hts)
  rintro fault rfl
  exact (h ts hts).2.result (Except.ok.inj hr)

theorem afterReport {fault : Fault} (hfault : fault.problem ≠ .exhausted) {u : Unit → Tracked α}
    {f : Unit → Parser α} (h : Tracks n depth (u ()) (f ())) :
    Tracks n depth (liftM (report fault) >>= u) (report fault >>= f) := by
  have := Unbounded.report hfault
  exact fun ts hts => (TracksAt.lift _).bind fun _ _ => h ts hts

theorem afterDiscard {d : List Token → List Token} (hd : ∀ ts, d ts <:+ ts) {u : Unit → Tracked α}
    {f : Unit → Parser α} (h : Tracks n depth (u ()) (f ())) :
    Tracks n depth (liftM (discard d) >>= u) (discard d >>= f) :=
  fun ts hts => (TracksAt.lift _).bind fun _ _ => h _ ((hd ts).length_le.trans_lt hts)

/-- A token that is not the end of the text is consumed. -/
theorem afterToken {u : Unit → Tracked α} {f : Unit → Parser α} (h : Tracks n depth (u ()) (f ()))
    {ts : List Token} (hts : ts.length < n + 1) (hk : (peek ts).kind ≠ .eof) :
    TracksAt depth ts (liftM (discard afterNext) >>= u) (discard afterNext >>= f) :=
  (TracksAt.lift _).bind fun _ _ =>
    h _ ((length_afterNext_lt hk).trans_le (Nat.le_of_lt_succ hts))

end Tracks

/-! ## Blocks -/

section Blocks

variable {n depth : Nat} {statements : Parser (List Stmt)} (hs : ReadsStmts statements)
  (hok : ∀ ts, ∃ list, (statements ts).result = .ok list) {tracked : Tracked (List Stmt)}
  (h : Tracks n (depth + 1) tracked statements)
include hs hok h

theorem tracks_block (opening closing : String) :
    Tracks n depth (Tracked.block tracked opening closing) (block statements opening closing) := by
  have hbody : Tracks n depth (Tracked.braced tracked) statements :=
    fun ts hts => (h ts hts).braced (hok ts)
  exact .after (reads_expect rfl _) fun _ => hbody.bind hs fun _ =>
    .after (reads_expect rfl _) fun _ => .pure _

theorem tracks_functionAfter {k k' : Nat} (hk : n ≤ k) (hk' : n ≤ k') (p : Position) :
    Tracks n depth (Tracked.functionAfter k tracked p) (functionAfter k' statements p) :=
  .after (reads_name _) fun _ => .after (reads_expect rfl _) fun _ =>
    .afterAgree (agreeBelow_itemsUntil (reads_name _) (.refl n _) (by omega) (by omega) _ _)
      (reads_itemsUntil (reads_name _) k' rfl _) fun _ =>
        (tracks_block hs hok h _ _).bind (reads_block hs _ _) fun _ => .pure _

theorem tracks_sceneAfter (p : Position) :
    Tracks n depth (Tracked.sceneAfter tracked p) (sceneAfter statements p) :=
  .after (reads_name _) fun _ =>
    (tracks_block hs hok h _ _).bind (reads_block hs _ _) fun _ => .pure _

variable {expr expr' : Parser Expr} (he : ReadsExpr expr') (hexpr : AgreeBelow n expr' expr)
include he hexpr

theorem tracks_repeatAfter (p : Position) :
    Tracks n depth (Tracked.repeatAfter expr tracked p) (repeatAfter expr' statements p) :=
  .afterAgree hexpr he fun _ =>
    (tracks_block hs hok h _ _).bind (reads_block hs _ _) fun _ => .pure _

theorem tracks_whileAfter (p : Position) :
    Tracks n depth (Tracked.whileAfter expr tracked p) (whileAfter expr' statements p) :=
  .afterAgree hexpr he fun _ =>
    (tracks_block hs hok h _ _).bind (reads_block hs _ _) fun _ => .pure _

theorem tracks_forAfter (p : Position) :
    Tracks n depth (Tracked.forAfter expr tracked p) (forAfter expr' statements p) :=
  .after (reads_expect rfl _) fun _ =>
    .afterAgree (agreeBelow_initClause he hexpr) (reads_initClause he) fun _ =>
      .after (reads_expect rfl _) fun _ => .afterAgree hexpr he fun _ =>
        .after (reads_expect rfl _) fun _ =>
          .afterAgree (agreeBelow_updateClause he hexpr) (reads_updateClause he) fun _ =>
            .after (reads_expect rfl _) fun _ =>
              (tracks_block hs hok h _ _).bind (reads_block hs _ _) fun _ => .pure _

end Blocks

theorem tracks_ifAfter {depth : Nat} {statements : Parser (List Stmt)} (hs : ReadsStmts statements)
    (hok : ∀ ts, ∃ list, (statements ts).result = .ok list) {tracked : Tracked (List Stmt)}
    {expr expr' : Parser Expr} (he : ReadsExpr expr') :
    ∀ {n k k' : Nat}, Tracks n (depth + 1) tracked statements → AgreeBelow n expr' expr → n ≤ k →
      n ≤ k' → ∀ p,
      Tracks n depth (Tracked.ifAfter expr tracked k p) (ifAfter expr' statements k' p)
  | 0, _, _, _, _, _, _ => fun _ _ hts => absurd hts (Nat.not_lt_zero _)
  | n + 1, k + 1, k' + 1, h, hexpr, hk, hk' => by
    intro p
    have nested := tracks_ifAfter hs hok he (h.mono n.le_succ) (hexpr.mono n.le_succ)
      (Nat.le_of_succ_le_succ hk) (Nat.le_of_succ_le_succ hk')
    have block := tracks_block hs hok h
    refine .afterAgree hexpr he fun cond =>
      (block _ _).bind (reads_block hs _ _) fun body ts hts => ?_
    refine .look (.ite (fun helse => ?_) fun _ => .pure _)
    refine Tracks.afterToken (fun ts hts => ?_) hts (by simp [helse])
    refine .look (.ite (fun hif => ?_) fun _ => ?_)
    · exact Tracks.afterToken ((nested _).bind (reads_ifAfter he hs k' (.any _)) fun _ => .pure _)
        (hts.trans n.lt_succ_self) (by simp [hif])
    · exact ((block _ _).bind (reads_block hs _ _) fun _ => .pure _) ts
        (hts.trans n.lt_succ_self)

/-! ## Commands -/

theorem tracks_commands {depth m m' : Nat} {expr expr' : Parser Expr} (he : ReadsExpr expr') :
    ∀ {n k k' : Nat}, AgreeBelow n expr' expr → n ≤ m → n ≤ m' → n ≤ k → n ≤ k' →
      Tracks n depth (Tracked.commands m expr k) (commands m' expr' k')
  | 0, _, _, _, _, _, _, _ => fun _ hts => absurd hts (Nat.not_lt_zero _)
  | n + 1, k + 1, k' + 1, h, hm, hm', hk, hk' => by
    intro ts hts
    have hmotion (kind : CommandKind) := agreeBelow_motion he (h.mono n.le_succ)
      (show n ≤ m' by omega) (show n ≤ m by omega) kind
    have more : Tracks n depth (Tracked.commands m expr k) (commands m' expr' k') :=
      tracks_commands he (h.mono n.le_succ) (by omega) (by omega) (by omega) (by omega)
    refine .look ?_
    cases ht : (peek ts).kind with
    | command kind =>
      refine Tracks.afterToken ((Tracks.ofAgree (hmotion kind)).bindAttempt
        (reads_motion hereditary_true m' he kind) fun r hr => ?_) hts (by simp [ht])
      cases r with
      | ok motion =>
        exact .after (reads_skipOptional rfl) fun _ =>
          more.bind (reads_commands hereditary_true m' he k') fun _ => .pure _
      | error fault => exact .afterReport (hr rfl) (.afterDiscard toCommand_suffix more)
    | rbrace | eof => exact .pure _
    | _ =>
      have heof : (peek ts).kind ≠ .eof := by simp [ht]
      have : Unbounded (report ⟨(peek ts).position, .unknownCommand (peek ts)⟩) := .report nofun
      refine (TracksAt.lift _).bind fun _ _ => ?_
      exact Tracks.afterToken (.afterDiscard toCommand_suffix more) hts heof

theorem tracks_animateAfter {n k k' : Nat} {expr expr' : Parser Expr} (he : ReadsExpr expr')
    (h : AgreeBelow n expr' expr) (hk : n ≤ k) (hk' : n ≤ k') (depth : Nat) (p : Position) :
    Tracks n depth (Tracked.animateAfter k expr p) (animateAfter k' expr' p) := by
  have hbody : Tracks n depth (Tracked.braced (Tracked.commands k expr k))
      (commands k' expr' k') := fun ts hts =>
    (tracks_commands he h hk hk' hk hk' ts hts).braced (exists_commands_eq_ok k' expr' k' ts)
  exact .after (reads_expect rfl _) fun _ => hbody.bind (reads_commands hereditary_true k' he k')
    fun _ => .after (reads_expect rfl _) fun _ => .pure _

/-! ## Statements -/

section Statements

variable {n k k' depth : Nat} {statements : Parser (List Stmt)} (hs : ReadsStmts statements)
  (hok : ∀ ts, ∃ list, (statements ts).result = .ok list) {tracked : Tracked (List Stmt)}
  (h : Tracks n (depth + 1) tracked statements) {expr expr' : Parser Expr} (he : ReadsExpr expr')
  (hk : n ≤ k) (hk' : n ≤ k')
include hs hok h he hk hk'

theorem tracks_keywordStatement? (hexpr : AgreeBelow n expr' expr) {p : Position} {word : Keyword}
    {after : Parser Stmt} (hw : keywordStatement? k' expr' statements p word = some after) :
    ∃ t, Tracked.keywordStatement? k expr tracked p word = some t ∧ Tracks n depth t after := by
  cases word <;> simp only [keywordStatement?, Option.some.injEq, reduceCtorEq] at hw <;> subst hw
  case letKw =>
    exact ⟨_, rfl, .afterAgree (agreeBelow_bindingAfter he hexpr p) (reads_bindingAfter he (.any p))
      fun _ => .pure _⟩
  case fnKw => exact ⟨_, rfl, tracks_functionAfter hs hok h hk hk' p⟩
  case returnKw => exact ⟨_, rfl, .ofAgree (agreeBelow_returnAfter he hexpr p)⟩
  case ifKw => exact ⟨_, rfl, tracks_ifAfter hs hok he h hexpr hk hk' p⟩
  case repeatKw => exact ⟨_, rfl, tracks_repeatAfter hs hok h he hexpr p⟩
  case whileKw => exact ⟨_, rfl, tracks_whileAfter hs hok h he hexpr p⟩
  case forKw => exact ⟨_, rfl, tracks_forAfter hs hok h he hexpr p⟩
  case animateKw => exact ⟨_, rfl, tracks_animateAfter he hexpr hk hk' depth p⟩
  case sceneKw => exact ⟨_, rfl, tracks_sceneAfter hs hok h p⟩
  case importKw => exact ⟨_, rfl, .ofAgree (agreeBelow_importAfter (by omega) (by omega) p)⟩

variable (hexpr : AgreeBelow (n + 1) expr' expr)
include hexpr

theorem tracks_bareStatement : Tracks (n + 1) depth (Tracked.bareStatement k expr tracked)
    (bareStatement k' expr' statements) := by
  intro ts hts
  have hother : Tracks (n + 1) depth (liftM (exprStatement expr)) (exprStatement expr') :=
    .ofAgree (hexpr.bind he fun _ => .refl _ _)
  refine .look ?_
  cases ht : (peek ts).kind with
  | keyword word =>
    dsimp only
    cases hw : keywordStatement? k' expr' statements (peek ts).position word with
    | some after =>
      obtain ⟨t, ht', hafter⟩ :=
        tracks_keywordStatement? hs hok h he hk hk' (hexpr.mono n.le_succ) hw
      rw [ht']
      exact Tracks.afterToken hafter hts (by simp [ht])
    | none =>
      have hw' : Tracked.keywordStatement? k expr tracked (peek ts).position word = none := by
        cases word <;> simp_all [keywordStatement?, Tracked.keywordStatement?]
      rw [hw']
      exact hother ts hts
  | _ => exact hother ts hts

theorem tracks_statement : Tracks (n + 1) depth (Tracked.statement k expr tracked)
    (statement k' expr' statements) :=
  (tracks_bareStatement hs hok h he hk hk' hexpr).bind (reads_bareStatement hereditary_true he hs k')
    fun _ => .after (reads_skipOptional rfl) fun _ => .pure _

end Statements

section StatementList

variable {inBlock : Bool} {P : Stmt → Prop} {one : Parser Stmt} (hs : ReadsAny P one)
  (hc : Consumes one)
include hs hc

theorem tracks_statementList {depth : Nat} {tracked : Tracked Stmt} :
    ∀ {n k k' : Nat}, Tracks n depth tracked one → n ≤ k → n ≤ k' →
      Tracks n depth (Tracked.statementList tracked k) (statementList (0 < depth) one k')
  | 0, _, _, _, _, _ => fun _ hts => absurd hts (Nat.not_lt_zero _)
  | n + 1, k + 1, k' + 1, h, hk, hk' => by
    intro ts hts
    have more := tracks_statementList (h.mono n.le_succ) (Nat.le_of_succ_le_succ hk)
      (Nat.le_of_succ_le_succ hk')
    refine .inBlock (.look (.ite (fun _ => .pure _) fun hend => ?_))
    have hend : endsStatements (0 < depth) (peek ts).kind = false := by simpa using hend
    refine (TracksAt.lift skipLineEnds).bind fun _ _ => ?_
    have hsignificant := (significant_suffix ts).length_le
    have hone := h (significant ts) (hsignificant.trans_lt hts)
    refine hone.attempt.bind fun r hr => ?_
    cases hr
    cases hr : (one (significant ts)).result with
    | ok s =>
      have hlt := hc _ s hr
      exact (more (one (significant ts)).rest (by omega)).bind fun _ _ => .pure _
    | error fault =>
      have hlt := length_resume_lt_of_starts hs hend
      have := Unbounded.report (hone.2.result hr)
      exact (TracksAt.lift _).bind fun _ _ => .inBlock <| (TracksAt.lift _).bind fun _ _ =>
        more (resume (0 < depth) (one (significant ts)).rest) (by omega)

/-- Enough passes lead to the end of the statements. -/
theorem ends_statementList : ∀ {k : Nat} {ts : List Token}, ts.length ≤ k →
    endsStatements inBlock (peek (statementList inBlock one k ts).rest).kind = true
  | 0, ts, hts => by
    rw [List.length_eq_zero_iff.1 (Nat.le_zero.1 hts)]
    rfl
  | k + 1, ts, hts => by
    cases hend : endsStatements inBlock (peek ts).kind with
    | true =>
      rw [statementList_of_ends hend]
      exact hend
    | false =>
      have hsignificant := (significant_suffix ts).length_le
      cases hr : (one (significant ts)).result with
      | ok s =>
        have hlt := hc _ s hr
        rw [statementList_of_ok hend hr]
        exact ends_statementList (by omega)
      | error fault =>
        have hlt := length_resume_lt_of_starts hs hend
        rw [statementList_of_error hend hr]
        exact ends_statementList (by omega)

end StatementList

/-- With bounds above the number of tokens nothing is used up, and every brace that is opened is
closed again. -/
theorem tracks_statementsWithin : ∀ {n k k' : Nat}, n < k → n < k' → ∀ depth,
    Tracks n depth (Tracked.statementsWithin k) (statementsWithin k' (0 < depth))
  | 0, _, _, _, _, _ => fun _ hts => absurd hts (Nat.not_lt_zero _)
  | n + 1, k + 1, k' + 1, hk, hk', depth => by
    have he := readsExpr_expressionWithin (k' + 1)
    have hs := readsStmts_statementsWithin k' true
    have hk₁ : n < k := Nat.lt_of_succ_lt_succ hk
    have hk₁' : n < k' := Nat.lt_of_succ_lt_succ hk'
    have hnested : Tracks n (depth + 1) (Tracked.statementsWithin k) (statementsWithin k' true) := by
      simpa using tracks_statementsWithin hk₁ hk₁' (depth + 1)
    have hexpr : AgreeBelow (n + 1) (expressionWithin (k' + 1)) (expressionWithin (k + 1)) :=
      agreeBelow_expressionWithin hk' hk
    have hone := tracks_statement hs (fun ts => exists_statementsWithin_eq_ok true ts k') hnested he
      hk₁.le hk₁'.le hexpr
    exact tracks_statementList (reads_statement hereditary_true he hs k')
      (consumes_statement he (consumes_expressionWithin _) k' hs) hone hk₁ hk₁'

/-- Statements are read alike under any two bounds that are greater than the number of tokens. -/
theorem statementsWithin_congr {ts : List Token} {k k' : Nat} (hk : ts.length + 1 < k)
    (hk' : ts.length + 1 < k') : statementsWithin k false ts = statementsWithin k' false ts := by
  have htracks {m : Nat} (hm : ts.length + 1 < m) :
      Tracked.statementsWithin k 0 ts = some (statementsWithin m false ts, 0) :=
    (tracks_statementsWithin hk hm 0 ts ts.length.lt_succ_self).1
  exact congrArg Prod.fst (Option.some.inj ((htracks hk).symm.trans (htracks hk')))

/-- Every bound greater than the number of tokens by two gives the program of `parse`. -/
theorem parse_eq_of_le {ts : List Token} {n : Nat} (h : ts.length + 2 ≤ n) :
    parse ts = ((statementsWithin n false ts).result.toOption.getD [],
      (statementsWithin n false ts).reported) := by
  have hbound : ts.length + 1 < n := by omega
  rw [parse, statementsWithin_congr (Nat.lt_succ_self (ts.length + 1)) hbound]

theorem ends_statementsWithin {n : Nat} {ts : List Token} (h : ts.length < n) (inBlock : Bool) :
    endsStatements inBlock (peek (statementsWithin n inBlock ts).rest).kind = true := by
  cases n with
  | zero => exact absurd h (Nat.not_lt_zero _)
  | succ n =>
    have he := readsExpr_expressionWithin (n + 1)
    have hs := readsStmts_statementsWithin n true
    exact ends_statementList (reads_statement hereditary_true he hs n)
      (consumes_statement he (consumes_expressionWithin _) n hs) (Nat.le_of_lt_succ h)

/-- What is left of the tokens after a program does not depend on the bound either. -/
theorem statementsWithin_eq_parse {ts : List Token} {n : Nat} (h : ts.length + 2 ≤ n) :
    statementsWithin n false ts =
      ⟨.ok (parse ts).1, (parse ts).2, (statementsWithin (ts.length + 2) false ts).rest⟩ := by
  have hbound : statementsWithin n false ts = statementsWithin (ts.length + 2) false ts :=
    statementsWithin_congr (show ts.length + 1 < n by omega) (by omega)
  obtain ⟨list, hlist⟩ := exists_statementsWithin_eq_ok false ts (ts.length + 2)
  rw [hbound, parse]
  generalize statementsWithin (ts.length + 2) false ts = o at hlist ⊢
  obtain ⟨result, reported, rest⟩ := o
  subst hlist
  rfl

/-- No fault of a program says that a bound inside of an expression is used up. -/
theorem fed_parse (ts : List Token) : ∀ f ∈ (parse ts).2, f.problem ≠ .exhausted := by
  have hbound : ts.length + 1 < ts.length + 2 := Nat.lt_succ_self _
  exact (tracks_statementsWithin hbound hbound 0 ts ts.length.lt_succ_self).2.reported

/-- Reading a program finishes for every list of tokens. No bound above their number is used up, the
program and the faults are those of `parse`, the end of the text is next, and no brace is open.
There are at most as many faults as tokens beside line ends and the end of the text. -/
theorem parse_finishes (ts : List Token) :
    ∃ rest : List Token,
      (∀ more, Tracked.statementsWithin (ts.length + 2 + more) 0 ts =
        some (⟨.ok (parse ts).1, (parse ts).2, rest⟩, 0)) ∧
      (peek rest).kind = .eof ∧
      (∀ f ∈ (parse ts).2, f.problem ≠ .exhausted) ∧
      (parse ts).2.length ≤ ts.countP fun t => t.kind != .newline && t.kind != .eof := by
  refine ⟨(statementsWithin (ts.length + 2) false ts).rest, fun more => ?_, ?_, fed_parse ts, ?_⟩
  · have hmore : ts.length + 1 < ts.length + 2 + more := by omega
    have htracks := tracks_statementsWithin hmore hmore 0 ts ts.length.lt_succ_self
    rw [← statementsWithin_eq_parse (Nat.le_add_right _ more)]
    exact htracks.1
  · have hends := ends_statementsWithin (show ts.length < ts.length + 2 by omega) false
    cases hk : (peek (statementsWithin (ts.length + 2) false ts).rest).kind with
    | eof => rfl
    | _ =>
      rw [hk] at hends
      cases hends
  · have hpaid := (readsStmts_statementsWithin (ts.length + 2) false ts trivial
      fun _ _ => trivial).paid
    exact (Nat.le_add_right _ _).trans hpaid

end Easel.Parser
