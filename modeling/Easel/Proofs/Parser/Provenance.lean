import Easel.Proofs.Parser.Reads

/-!
# What statement parsers read

`Stmt.From T Q` says that a statement is made of tokens of the class `T` and of expressions with the
property `Q`.  Every statement that is read from such tokens is, also where others around it could
not be read: `reads_statementsWithin`, `from_parse`.

A fault in a statement or command is reported, and reading goes on behind it.  The report of a
statement is paid for by a token it passed, or by the one it stopped at, which is then passed over
(`Starts`).
-/

namespace Easel

/-- The place is that of a token of a class. -/
def Position.From (T : Token → Prop) (p : Position) : Prop := ∃ t, T t ∧ t.position = p

theorem Position.From.any (p : Position) : p.From fun _ => True := ⟨⟨.eof, "", p, 0⟩, trivial, rfl⟩

/-- The text is the value of a token of a class and a kind. -/
def TextFrom (T : Token → Prop) (kind : Token.Kind) (s : String) : Prop :=
  ∃ t, T t ∧ t.kind = kind ∧ t.lexeme = s

theorem Ident.From.textFrom {T : Token → Prop} {id : Ident} (h : id.From T) :
    TextFrom T .identifier id.name := by
  obtain ⟨t, ht, hk, rfl⟩ := h
  exact ⟨t, ht, hk, rfl⟩

/-- The command stands at a token of a class and its arguments have a property. -/
structure Command.From (T : Token → Prop) (Q : Expr → Prop) (c : Command) : Prop where
  position : c.position.From T
  arguments : ∀ e ∈ c.motion.arguments, Q e

/-- The binding is made of tokens of a class and its value has a property. -/
structure Binding.From (T : Token → Prop) (Q : Expr → Prop) (b : Binding) : Prop where
  position : b.position.From T
  name : b.name.From T
  value : Q b.value

/-- The first clause of a loop is made of tokens of a class and of expressions with a property. -/
inductive Init.From (T : Token → Prop) (Q : Expr → Prop) : Init → Prop
  | binding {b : Binding} (h : b.From T Q) : From T Q (.binding b)
  | expr {e : Expr} (h : Q e) : From T Q (.expr e)

/-- The statement is made of tokens of a class and of expressions with a property. -/
inductive Stmt.From (T : Token → Prop) (Q : Expr → Prop) : Stmt → Prop
  | binding {b : Binding} (h : b.From T Q) : From T Q (.binding b)
  | function {p : Position} {name : Ident} {params : List Ident} {body : List Stmt}
      (hp : p.From T) (hname : name.From T) (hparams : ∀ id ∈ params, id.From T)
      (hbody : ∀ s ∈ body, From T Q s) : From T Q (.function p name params body)
  | ret {p : Position} {value : Option Expr} (hp : p.From T) (hvalue : ∀ e ∈ value.toList, Q e) :
      From T Q (.ret p value)
  | ifThen {p : Position} {cond : Expr} {body : List Stmt} (hp : p.From T) (hcond : Q cond)
      (hbody : ∀ s ∈ body, From T Q s) : From T Q (.ifThen p cond body)
  | ifElse {p : Position} {cond : Expr} {body alternative : List Stmt} (hp : p.From T)
      (hcond : Q cond) (hbody : ∀ s ∈ body, From T Q s)
      (halternative : ∀ s ∈ alternative, From T Q s) :
      From T Q (.ifElse p cond body alternative)
  | repeatLoop {p : Position} {times : Expr} {body : List Stmt} (hp : p.From T) (htimes : Q times)
      (hbody : ∀ s ∈ body, From T Q s) : From T Q (.repeatLoop p times body)
  | whileLoop {p : Position} {cond : Expr} {body : List Stmt} (hp : p.From T) (hcond : Q cond)
      (hbody : ∀ s ∈ body, From T Q s) : From T Q (.whileLoop p cond body)
  | forLoop {p : Position} {init : Option Init} {cond : Expr} {update : Option Expr}
      {body : List Stmt} (hp : p.From T) (hinit : ∀ i ∈ init, i.From T Q) (hcond : Q cond)
      (hupdate : ∀ e ∈ update.toList, Q e) (hbody : ∀ s ∈ body, From T Q s) :
      From T Q (.forLoop p init cond update body)
  | importFrom {p : Position} {names : List Ident} {path : String} (hp : p.From T)
      (hnames : ∀ id ∈ names, id.From T) (hpath : TextFrom T .string path) :
      From T Q (.importFrom p names path)
  | scene {p : Position} {name : String} {body : List Stmt} (hp : p.From T)
      (hname : TextFrom T .identifier name) (hbody : ∀ s ∈ body, From T Q s) :
      From T Q (.scene p name body)
  | animate {p : Position} {commands : List Command} (hp : p.From T)
      (hcommands : ∀ c ∈ commands, c.From T Q) : From T Q (.animate p commands)
  | expr {e : Expr} (h : Q e) : From T Q (.expr e)

namespace Parser

variable {α β : Type} {T : Token → Prop}

/-- A fault that is handed over as a value is reported and reading goes on behind it.  Something has
to pay for the report. -/
theorem steps_attempt {P : α → Prop} {Q : β → Prop} {p : Parser α} {f : Except Fault α → Parser β}
    {d : List Token → List Token} {q : Parser β} {ts us : List Token} (hp : Reads False T P p)
    (hok : ∀ a, P a → Reads False T Q (f (.ok a))) (hq : Reads False T Q q)
    (herror : ∀ fault, f (.error fault) = report fault >>= fun _ => discard d >>= fun _ => q)
    (hd : ∀ rest, Left (d rest) rest) (hus : Left us ts) (hpassed : Passed us ts)
    (hpaid : ∀ fault, (p us).result = .error fault →
      (p us).reported.length + 1 + weight (d (p us).rest) ≤ weight ts)
    (hbeyond : T .beyond) (hts : ∀ t ∈ ts, T t) : Steps False Q ts ((attempt p >>= f) us) := by
  have hmem {rest : List Token} (hrest : rest <:+ ts) : ∀ t ∈ rest, T t :=
    fun t ht => hts t (hrest.mem ht)
  have hfirst := hp us hbeyond (hmem hus.suffix)
  cases hr : (p us).result with
  | ok a =>
    rw [attempt_bind_of_ok hr]
    exact (hp.bind hok us hbeyond (hmem hus.suffix)).before hus fun _ _ => hpassed
  | error fault =>
    have hmore := hq (d (p us).rest) hbeyond
      (hmem ((hd _).suffix.trans (hfirst.rest_suffix.trans hus.suffix)))
    rw [attempt_bind, hr, herror]
    exact hfirst.resume hus hr (hd _) (hpaid fault hr) hmore

/-! ## Commands -/

section Commands

variable {quiet : Prop} {Q : Expr → Prop} (hQ : Expr.Hereditary T Q) {expr : Parser Expr} (n : Nat)

theorem reads_direction : Reads quiet T (fun _ => True) direction := by
  refine .lookHere fun ts _ => ?_
  by_cases hk : (ts.headD .beyond).kind = .identifier
  · split
    · exact .afterHere hk rfl (.pure trivial)
    · exact .pure trivial
  · rw [if_neg hk]
    exact .pure trivial

include hQ

section

variable (h : Reads quiet T Q expr)
include h

theorem reads_argument : Reads quiet T Q (argument n expr) :=
  reads_negations hQ (reads_primary hQ h n) n

theorem reads_optionalArgument :
    Reads quiet T (fun o => ∀ e ∈ o.toList, Q e) (optionalArgument n expr) :=
  .lookHere fun ts _ => .ite
    (fun _ => .bind (reads_argument hQ n h ts) fun _ he => .pure (List.forall_mem_singleton.2 he))
    fun _ => .pure (List.forall_mem_nil _)

theorem reads_motion (kind : CommandKind) :
    Reads quiet T (fun m : Motion => ∀ e ∈ m.arguments, Q e) (motion n expr kind) := by
  have arg := reads_argument hQ n h
  have opt := reads_optionalArgument hQ n h
  cases kind with
  | move =>
    exact .bind arg fun _ ha => .bind reads_direction fun _ _ =>
      .pure (List.forall_mem_singleton.2 ha)
  | rotate | scale | fade => exact .bind arg fun _ ha => .pure (List.forall_mem_singleton.2 ha)
  | bounce => exact .bind opt fun _ ho => .pure ho
  | wave =>
    refine .bind arg fun _ ha => .bind arg fun _ hb => .pure ?_
    simp only [Motion.arguments, List.forall_mem_cons]
    exact ⟨ha, hb, List.forall_mem_nil _⟩
  | orbit =>
    refine .bind arg fun _ ha => .bind arg fun _ hb => .bind arg fun _ hc => .bind arg fun _ hd =>
      .pure ?_
    simp only [Motion.arguments, List.forall_mem_cons]
    exact ⟨ha, hb, hc, hd, List.forall_mem_nil _⟩
  | pulse =>
    refine .bind arg fun _ ha => .bind arg fun _ hb => .bind opt fun _ ho => .pure ?_
    simp only [Motion.arguments, List.forall_mem_append, List.forall_mem_cons]
    exact ⟨⟨ha, hb, List.forall_mem_nil _⟩, ho⟩
  | wobble =>
    refine .bind arg fun _ ha => .bind opt fun _ ho => .pure ?_
    simp only [Motion.arguments, List.forall_mem_append, List.forall_mem_cons]
    exact ⟨⟨ha, List.forall_mem_nil _⟩, ho⟩
  | spring =>
    refine .bind arg fun x ha => .bind arg fun y hb => .bind opt fun stiffness ho => ?_
    have spring {damping : Option Expr} (hd : ∀ e ∈ damping.toList, Q e) :
        ∀ e ∈ (Motion.spring x y stiffness damping).arguments, Q e := by
      simp only [Motion.arguments, List.forall_mem_append, List.forall_mem_cons]
      exact ⟨⟨ha, hb, List.forall_mem_nil _⟩, ho, hd⟩
    cases stiffness with
    | some _ => exact .bind opt fun _ hd => .pure (spring hd)
    | none => exact .pure (spring (List.forall_mem_nil _))

end

variable (h : Reads False T Q expr)
include h

/-- The word of a command pays for the report of its fault, and so does a token that is no
command. -/
theorem reads_commands :
    ∀ k, Reads False T (fun cs => ∀ c ∈ cs, c.From T Q) (commands n expr k)
  | 0 => .pure (List.forall_mem_nil _)
  | k + 1 => by
    have more := reads_commands k
    refine .look fun ts ht => ?_
    have hnext (hts : ∀ t ∈ ts, T t) : ∀ t ∈ afterNext ts, T t :=
      fun t ht => hts t ((left_afterNext ts).mem ht)
    split
    · exact .pure (List.forall_mem_nil _)
    · exact .pure (List.forall_mem_nil _)
    · next kind hk =>
      intro hbeyond hts
      have hmotion := reads_motion hQ n h kind
      rw [discard_bind]
      refine steps_attempt hmotion (fun m hm => ?_) more (fun _ => rfl) left_toCommand
        (left_afterNext ts) (passed_afterNext_of_passable (by rw [hk]; rfl)) (fun fault hr => ?_)
        hbeyond hts
      · exact .bind (reads_skipOptional rfl) fun _ _ => .bind more fun _ hrest =>
          .pure (List.forall_mem_cons.2 ⟨⟨⟨_, ht, rfl⟩, hm⟩, hrest⟩)
      · have hweight : weight (afterNext ts) + 1 = weight ts := weight_afterNext (by simp [hk])
        have hpaid := (hmotion (afterNext ts) hbeyond (hnext hts)).paid
        have hle := (left_toCommand (motion n expr kind (afterNext ts)).rest).weight_le
        omega
    · next heof _ =>
      intro hbeyond hts
      have hskip := left_toCommand (afterNext ts)
      have hmore := more (toCommand (afterNext ts)) hbeyond fun t ht => hnext hts t (hskip.mem ht)
      have hstop : Steps False (fun _ : Unit => True) ts
          ⟨.error ⟨(peek ts).position, .unknownCommand (peek ts)⟩, [], ts⟩ := .error _ .here
      refine hstop.resume .here rfl ((left_afterNext ts).trans hskip) ?_ hmore
      have hweight := weight_afterNext heof
      have hle := hskip.weight_le
      rw [List.length_nil]
      omega

end Commands

theorem exists_ok_bind {p : Parser α} {f : α → Parser β} {ts : List Token}
    (hp : ∃ a, (p ts).result = .ok a) (hf : ∀ a us, ∃ b, (f a us).result = .ok b) :
    ∃ b, ((p >>= f) ts).result = .ok b := by
  obtain ⟨a, ha⟩ := hp
  rw [bind_of_ok ha]
  exact hf a _

/-- A fault in a command is reported, so command after command is read in any case. -/
theorem exists_commands_eq_ok (n : Nat) (expr : Parser Expr) :
    ∀ k ts, ∃ list, (commands n expr k ts).result = .ok list
  | 0, _ => ⟨[], rfl⟩
  | k + 1, ts => by
    have more := exists_commands_eq_ok n expr k
    have hskip (us : List Token) : ∃ a, (skipOptional .semicolon us).result = .ok a := by
      refine ⟨(), ?_⟩
      rw [skipOptional, look_bind]
      split_ifs <;> rfl
    rw [commands, look_bind]
    cases (peek ts).kind with
    | rbrace | eof => exact ⟨[], rfl⟩
    | command kind =>
      dsimp only
      rw [discard_bind, attempt_bind]
      cases (motion n expr kind (afterNext ts)).result with
      | ok m =>
        exact exists_ok_bind (hskip _) fun _ us => exists_ok_bind (more us) fun _ _ => ⟨_, rfl⟩
      | error fault => exact more _
    | _ => exact more _

/-! ## Statements -/

section Statements

variable {Q : Expr → Prop} (hQ : Expr.Hereditary T Q) {expr : Parser Expr}
  (h : Reads False T Q expr) {statements : Parser (List Stmt)}
  (hs : Reads False T (fun ss => ∀ s ∈ ss, s.From T Q) statements) (n : Nat) {p : Position}
  (hp : p.From T)

include hs in
theorem reads_block (opening closing : String) :
    Reads False T (fun ss => ∀ s ∈ ss, s.From T Q) (block statements opening closing) :=
  .bind (reads_expect rfl _) fun _ _ => .bind hs fun _ hbody => .bind (reads_expect rfl _)
    fun _ _ => .pure hbody

include h in
theorem reads_updateClause : Reads False T (fun o => ∀ e ∈ o.toList, Q e) (updateClause expr) :=
  .look fun ts _ => .ite (fun _ => .pure (List.forall_mem_nil _)) fun _ =>
    .bind (h ts) fun _ he => .pure (List.forall_mem_singleton.2 he)

theorem reads_importedNames : Reads False T (fun ids => ∀ id ∈ ids, id.From T) (importedNames n) :=
  .look fun ts _ => .ite (fun _ => .pure (List.forall_mem_nil _)) fun _ =>
    .bind (reads_items (reads_name _) n ts) fun _ hids => .bind (reads_expectWord _ _) fun _ _ =>
      .pure hids

include hp in
theorem reads_importAfter : Reads False T (Stmt.From T Q) (importAfter n p) :=
  .bind (reads_importedNames n) fun _ hnames => .bind (reads_expect rfl _) fun t ⟨hk, ht⟩ =>
    .pure (.importFrom hp hnames ⟨t, ht, hk, rfl⟩)

include h hp in
theorem reads_bindingAfter : Reads False T (fun b => b.From T Q) (bindingAfter expr p) :=
  .bind (reads_name _) fun _ hname => .bind (reads_expect rfl _) fun _ _ => .bind h fun _ hvalue =>
    .pure ⟨hp, hname, hvalue⟩

include h in
theorem reads_initClause : Reads False T (fun o => ∀ i ∈ o, i.From T Q) (initClause expr) := by
  refine .look fun ts ht => ?_
  split
  · exact .pure (by rintro _ ⟨⟩)
  · next hk =>
    refine .afterToken hk rfl (.bind (reads_bindingAfter h ⟨_, ht, rfl⟩) fun b hb => .pure ?_)
    rintro _ ⟨⟩
    exact .binding hb
  · refine .bind (h ts) fun e he => .pure ?_
    rintro _ ⟨⟩
    exact .expr he

include h hp in
theorem reads_returnAfter : Reads False T (Stmt.From T Q) (returnAfter expr p) := by
  refine .lookHere fun ts _ => ?_
  split
  on_goal 5 =>
    exact .bind (h ts) fun _ hvalue => .pure (.ret hp (List.forall_mem_singleton.2 hvalue))
  all_goals exact .pure (.ret hp (List.forall_mem_nil _))

include hQ h hp in
theorem reads_animateAfter : Reads False T (Stmt.From T Q) (animateAfter n expr p) :=
  .bind (reads_expect rfl _) fun _ _ => .bind (reads_commands hQ n h n) fun _ hcommands =>
    .bind (reads_expect rfl _) fun _ _ => .pure (.animate hp hcommands)

include hs hp

theorem reads_functionAfter : Reads False T (Stmt.From T Q) (functionAfter n statements p) :=
  .bind (reads_name _) fun _ hname => .bind (reads_expect rfl _) fun _ _ =>
    .bind (reads_itemsUntil (reads_name _) n rfl _) fun _ hparams =>
      .bind (reads_block hs _ _) fun _ hbody => .pure (.function hp hname hparams hbody)

theorem reads_sceneAfter : Reads False T (Stmt.From T Q) (sceneAfter statements p) :=
  .bind (reads_name _) fun _ hname => .bind (reads_block hs _ _) fun _ hbody =>
    .pure (.scene hp hname.textFrom hbody)

include h

omit hp in
theorem reads_ifAfter :
    ∀ k {p : Position}, p.From T → Reads False T (Stmt.From T Q) (ifAfter expr statements k p)
  | 0, _, _ => reads_exhausted
  | k + 1, _, hp =>
    .bind h fun _ hcond => .bind (reads_block hs _ _) fun _ hbody => .look fun _ _ => .ite
      (fun hk => .afterToken hk rfl (.look fun ts ht => .ite
        (fun hk => .afterToken hk rfl (.bind (reads_ifAfter k ⟨_, ht, rfl⟩) fun _ hnested =>
          .pure (.ifElse hp hcond hbody (List.forall_mem_singleton.2 hnested))))
        fun _ => .bind (reads_block hs _ _ ts) fun _ halternative =>
          .pure (.ifElse hp hcond hbody halternative)))
      fun _ => .pure (.ifThen hp hcond hbody)

theorem reads_repeatAfter : Reads False T (Stmt.From T Q) (repeatAfter expr statements p) :=
  .bind h fun _ htimes => .bind (reads_block hs _ _) fun _ hbody =>
    .pure (.repeatLoop hp htimes hbody)

theorem reads_whileAfter : Reads False T (Stmt.From T Q) (whileAfter expr statements p) :=
  .bind h fun _ hcond => .bind (reads_block hs _ _) fun _ hbody => .pure (.whileLoop hp hcond hbody)

theorem reads_forAfter : Reads False T (Stmt.From T Q) (forAfter expr statements p) :=
  .bind (reads_expect rfl _) fun _ _ => .bind (reads_initClause h) fun _ hinit =>
  .bind (reads_expect rfl _) fun _ _ => .bind h fun _ hcond =>
  .bind (reads_expect rfl _) fun _ _ => .bind (reads_updateClause h) fun _ hupdate =>
  .bind (reads_expect rfl _) fun _ _ => .bind (reads_block hs _ _) fun _ hbody =>
    .pure (.forLoop hp hinit hcond hupdate hbody)

include hQ

theorem reads_keywordStatement? {word : Keyword} {after : Parser Stmt}
    (hafter : keywordStatement? n expr statements p word = some after) :
    Reads False T (Stmt.From T Q) after := by
  cases word <;> simp only [keywordStatement?, Option.some.injEq, reduceCtorEq] at hafter <;>
    subst hafter
  case letKw => exact .bind (reads_bindingAfter h hp) fun _ hb => .pure (.binding hb)
  case fnKw => exact reads_functionAfter hs n hp
  case returnKw => exact reads_returnAfter h hp
  case ifKw => exact reads_ifAfter h hs n hp
  case repeatKw => exact reads_repeatAfter h hs hp
  case whileKw => exact reads_whileAfter h hs hp
  case forKw => exact reads_forAfter h hs hp
  case importKw => exact reads_importAfter n hp
  case sceneKw => exact reads_sceneAfter hs hp
  case animateKw => exact reads_animateAfter hQ h n hp

omit hp

theorem reads_bareStatement : Reads False T (Stmt.From T Q) (bareStatement n expr statements) := by
  have hexpr : Reads False T (Stmt.From T Q) (exprStatement expr) :=
    .bind h fun _ he => .pure (.expr he)
  refine .look fun ts ht => ?_
  split
  · next hk =>
    split
    · next hafter =>
      exact .afterToken hk rfl (reads_keywordStatement? hQ h hs n ⟨_, ht, rfl⟩ hafter)
    · exact hexpr ts
  · exact hexpr ts

theorem reads_statement : Reads False T (Stmt.From T Q) (statement n expr statements) :=
  .bind (reads_bareStatement hQ h hs n) fun _ hstmt => .bind (reads_skipOptional rfl) fun _ _ =>
    .pure hstmt

end Statements

/-! ## One statement after another -/

/-- What a statement does where a token comes next: it passes a token beside those that pay for its
reports, or it stops at once. -/
def Starts (T : Token → Prop) (one : Parser Stmt) : Prop :=
  T .beyond → ∀ ts : List Token, (∀ t ∈ ts, T t) → significant ts = ts → (peek ts).kind ≠ .eof →
    (one ts).reported.length + weight (one ts).rest < weight ts ∨
      (one ts).reported = [] ∧ (one ts).rest = ts ∧ ∃ fault, (one ts).result = .error fault

section Starts

variable {Q : Expr → Prop} {expr : Parser Expr} (h : Reads True T Q expr) (hc : Consumes expr)
include h hc

theorem starts_exprStatement : Starts T (exprStatement expr) := by
  intro hbeyond ts hts hsignificant _
  have hsteps : Steps True (fun _ => True) ts (exprStatement expr ts) :=
    Reads.bind h (fun _ _ => .pure trivial) ts hbeyond hts
  have hreported := hsteps.reported_eq_nil trivial
  have hleft := hsteps.met.ahead
  rw [Ahead, hsignificant] at hleft
  rcases hleft.eq_or_weight_lt hsignificant with hall | hlt
  · have hlength := (significant_suffix (exprStatement expr ts).rest).length_le
    rw [hall] at hlength
    have hrest := hsteps.rest_suffix.eq_of_length_le hlength
    refine .inr ⟨hreported, hrest, ?_⟩
    cases hr : (exprStatement expr ts).result with
    | error fault => exact ⟨fault, rfl⟩
    | ok s =>
      have hconsumes : Consumes (exprStatement expr) :=
        hc.bind fun _ => (Reads.pure trivial : ReadsAny (fun _ => True) _)
      have hlt := hconsumes ts s hr
      rw [hrest] at hlt
      exact absurd hlt (Nat.lt_irrefl _)
  · rw [weight_significant] at hlt
    exact .inl (by rw [hreported]; simpa using hlt)

variable (hQ : Expr.Hereditary T Q) (n : Nat) {statements : Parser (List Stmt)}
  (hs : Reads False T (fun ss => ∀ s ∈ ss, s.From T Q) statements)
include hQ hs

theorem starts_bareStatement : Starts T (bareStatement n expr statements) := by
  intro hbeyond ts hts hsignificant heof
  have hexpr := starts_exprStatement h hc hbeyond ts hts hsignificant heof
  rw [bareStatement, look_bind]
  cases hk : (peek ts).kind with
  | keyword word =>
    dsimp only
    cases hafter : keywordStatement? n expr statements (peek ts).position word with
    | some after =>
      have hpaid := (reads_keywordStatement? hQ h.loud hs n ⟨_, Reads.holds_peek hbeyond hts, rfl⟩
        hafter (afterNext ts) hbeyond fun t ht => hts t ((left_afterNext ts).mem ht)).paid
      have hweight := weight_afterNext heof
      dsimp only
      rw [discard_bind]
      exact .inl (by omega)
    | none => exact hexpr
  | _ => exact hexpr

theorem starts_statement : Starts T (statement n expr statements) := by
  intro hbeyond ts hts hsignificant heof
  have hbare := starts_bareStatement h hc hQ n hs hbeyond ts hts hsignificant heof
  cases hr : (bareStatement n expr statements ts).result with
  | error fault =>
    rw [statement, bind_of_error hr]
    rw [hr] at hbare
    exact hbare
  | ok s =>
    have hskip : ReadsAny (fun _ => True) (skipOptional .semicolon >>= fun _ => pure s) :=
      .bind (reads_skipOptional rfl) fun _ _ => .pure trivial
    have hpaid := (hskip (bareStatement n expr statements ts).rest trivial fun _ _ => trivial).paid
    rw [statement, bind_of_ok hr]
    rw [hr] at hbare
    refine .inl ?_
    rcases hbare with hlt | ⟨-, -, fault, hfault⟩
    · simp only [List.length_append]
      omega
    · cases hfault

end Starts

theorem reads_statementList {P : Stmt → Prop} (inBlock : Bool) {one : Parser Stmt}
    (h : Reads False T P one) (hstarts : Starts T one) :
    ∀ k, Reads False T (fun ss => ∀ s ∈ ss, P s) (statementList inBlock one k)
  | 0 => .pure (List.forall_mem_nil _)
  | k + 1 => by
    have more := reads_statementList inBlock h hstarts k
    refine .look fun ts _ => .ite (fun _ => .pure (List.forall_mem_nil _)) fun hend => ?_
    intro hbeyond hts
    rw [skipLineEnds_bind]
    refine steps_attempt h (fun s hs => .bind more fun _ hrest =>
      .pure (List.forall_mem_cons.2 ⟨hs, hrest⟩)) more (fun _ => rfl) (left_resume inBlock)
      (left_significant ts) (passed_significant ts) (fun fault hr => ?_) hbeyond hts
    rw [Bool.not_eq_true, ← peek_significant] at hend
    have heof : (peek (significant ts)).kind ≠ .eof := by
      intro hk
      rw [hk] at hend
      cases hend
    have hle := (left_resume inBlock (one (significant ts)).rest).weight_le
    rw [← weight_significant ts]
    rcases hstarts hbeyond _ (fun t ht => hts t ((left_significant ts).mem ht))
      (significant_significant ts) heof with hlt | ⟨hreported, hrest, -⟩
    · omega
    · have hlt := weight_resume_lt (significant_significant ts) hend
      rw [hreported, hrest, List.length_nil]
      omega

theorem reads_statementsWithin {Q : Expr → Prop} (hQ : Expr.Hereditary T Q) :
    ∀ n inBlock, Reads False T (fun ss => ∀ s ∈ ss, s.From T Q) (statementsWithin n inBlock)
  | 0, _ => .pure (List.forall_mem_nil _)
  | n + 1, inBlock => by
    have hs := reads_statementsWithin hQ n true
    exact reads_statementList inBlock (reads_statement hQ (reads_expressionWithin hQ _) hs n)
      (starts_statement (reads_expressionWithin hQ _) (consumes_expressionWithin _) hQ n hs) n

theorem exists_statementsWithin_eq_ok (inBlock : Bool) (ts : List Token) :
    ∀ n, ∃ list, (statementsWithin n inBlock ts).result = .ok list
  | 0 => ⟨[], rfl⟩
  | n + 1 => exists_statementList_eq_ok inBlock _ n ts

/-- The parser reads some statements, whatever tokens it is given. -/
abbrev ReadsStmts (statements : Parser (List Stmt)) : Prop :=
  ReadsAny (fun ss => ∀ s ∈ ss, s.From (fun _ => True) fun _ => True) statements

theorem readsStmts_statementsWithin (n : Nat) (inBlock : Bool) :
    ReadsStmts (statementsWithin n inBlock) :=
  reads_statementsWithin Expr.hereditary_true n inBlock

theorem consumes_statement {expr : Parser Expr} (he : ReadsExpr expr) (hc : Consumes expr) (n : Nat)
    {statements : Parser (List Stmt)} (hs : ReadsStmts statements) :
    Consumes (statement n expr statements) := by
  have hexpr : Consumes (exprStatement expr) :=
    hc.bind fun _ => (Reads.pure trivial : ReadsAny (fun _ => True) _)
  have hskip (s : Stmt) :
      ReadsAny (fun _ => True) (skipOptional .semicolon >>= fun _ => pure s) :=
    .bind (reads_skipOptional rfl) fun _ _ => .pure trivial
  refine Consumes.bind (consumes_look fun ts => ?_) hskip
  split
  · next hk =>
    split
    · next hafter =>
      exact consumesAt_afterToken
        (reads_keywordStatement? Expr.hereditary_true he hs n ⟨_, trivial, rfl⟩ hafter) (by simp [hk])
    · exact hexpr ts
  · exact hexpr ts

end Parser

/-- Every statement of a program that is read from tokens of a class is made of such tokens. -/
theorem from_parse {T : Token → Prop} {Q : Expr → Prop} (hQ : Expr.Hereditary T Q)
    (hbeyond : T .beyond) {ts : List Token} (hts : ∀ t ∈ ts, T t) :
    ∀ s ∈ (parse ts).1, s.From T Q := by
  have h := (Parser.reads_statementsWithin hQ (ts.length + 2) false ts hbeyond hts).value
  rw [parse]
  cases hr : (Parser.statementsWithin (ts.length + 2) false ts).result with
  | ok ss => exact h ss hr
  | error fault => exact List.forall_mem_nil _

end Easel
