import Easel.Proofs.Parser.Likeness

/-!
# Expressions and statements on two token lists

The parsers for expressions, commands and statements do alike on like lists.  The main results are
`firm_expressionWithin`, `firm_statement` and `openSim_statementsWithin`.
-/

namespace Easel.Parser.Likeness

variable {L : Likeness}

/-! ## Primaries -/

/-- Expressions that are equal once their places are compared. -/
abbrev expr (L : Likeness) (e e' : Expr) : Prop := e.relocate L.place = e'.relocate L.place

/-- As `expr`, where there may be none. -/
abbrev optional (L : Likeness) (e e' : Option Expr) : Prop :=
  Expr.relocateOptional L.place e = Expr.relocateOptional L.place e'

/-- Pairs of expressions that are alike. -/
abbrev pair (L : Likeness) (a b : Expr × Expr) : Prop := L.expr a.1 b.1 ∧ L.expr a.2 b.2

/-- Properties with one key and like values. -/
abbrev property (L : Likeness) (a b : String × Expr) : Prop :=
  (a.1, a.2.relocate L.place) = (b.1, b.2.relocate L.place)

theorem relocateAll_eq {es es' : List Expr} (h : List.Forall₂ L.expr es es') :
    Expr.relocateAll L.place es = Expr.relocateAll L.place es' := by
  rw [Expr.relocateAll_eq_map, Expr.relocateAll_eq_map]
  exact map_eq_of_forall₂ h

theorem relocateProperties_eq {ps ps' : List (String × Expr)} (h : List.Forall₂ L.property ps ps') :
    Expr.relocateProperties L.place ps = Expr.relocateProperties L.place ps' := by
  rw [Expr.relocateProperties_eq_map, Expr.relocateProperties_eq_map]
  exact map_eq_of_forall₂ h

section Expressions

variable {e : Parser Expr} (h : L.Firm L.expr e) (n : Nat)
include h

theorem firm_property : L.Firm L.property (Parser.property e) :=
  (firm_expect (by decide) _).bind fun _ _ hkey => (firm_expect (by decide) _).sim.bind fun _ _ _ =>
    h.sim.bind fun _ _ hvalue => sim_pure (by rw [Likeness.property, lexeme_eq hkey, hvalue])

omit h in
theorem sim_numberLiteral {t t' : Token} (ht : L.token t t') :
    L.Sim L.expr (numberLiteral t) (numberLiteral t') := by
  intro ts ts' hts
  rw [numberLiteral, numberLiteral, ← lexeme_eq ht]
  cases Numeral.ofLiteral? t.lexeme.toList with
  | some v => exact simAt_pure (by rw [expr, Expr.relocate, Expr.relocate, L.place_eq ht]) hts
  | none => exact simAt_failAt ht (.refl _) hts

omit h in
theorem leaf?_alike {t t' : Token} (ht : L.token t t') :
    (leaf? t).map (Expr.relocate L.place) = (leaf? t').map (Expr.relocate L.place) := by
  unfold leaf?
  rw [← L.kind_eq ht, ← lexeme_eq ht]
  split <;> simp [Expr.relocate, Ident.relocate, L.place_eq ht]

omit h in
theorem simAt_leaf {t t' : Token} (ht : L.token t t') {ts ts' : List Token} (hts : L.list ts ts')
    (hend : ¬ L.ended ts) :
    L.SimAt L.expr ts ts'
      (match leaf? t with | some e => discard afterNext >>= fun _ => pure e
                          | none => failAt t (misplaced t))
      (match leaf? t' with | some e => discard afterNext >>= fun _ => pure e
                           | none => failAt t' (misplaced t')) := by
  have hleaf := leaf?_alike ht
  have hmisplaced : misplaced t = misplaced t' := by
    rw [misplaced, misplaced, L.kind_eq ht, lexeme_eq ht]
  cases hl : leaf? t <;> cases hl' : leaf? t' <;> rw [hl, hl'] at hleaf
  · exact simAt_failAt ht (hmisplaced ▸ .refl _) hts
  · cases hleaf
  · cases hleaf
  · have he : L.expr _ _ := Option.some.inj hleaf
    refine simAt_afterToken ?_ hts hend
    exact sim_pure he

theorem firm_primary : L.Firm L.expr (primary n e) := by
  refine firm_look (fun ts ts' t t' hts hend ht => ?_) fun ts hend hk => ?_
  · rw [← L.kind_eq ht]
    cases hk : t.kind with
    | number => exact simAt_afterToken (sim_numberLiteral ht) hts hend
    | lbracket =>
      refine simAt_afterToken ?_ hts hend
      exact (sim_itemsUntil h n (by decide) _).bind fun _ _ hes =>
        sim_pure (by rw [expr, Expr.relocate, Expr.relocate, L.place_eq ht, relocateAll_eq hes])
    | lbrace =>
      refine simAt_afterToken ?_ hts hend
      exact (sim_itemsUntil (firm_property h) n (by decide) _).bind fun _ _ hps =>
        sim_pure (by
          rw [expr, Expr.relocate, Expr.relocate, L.place_eq ht, relocateProperties_eq hps])
    | lparen =>
      refine simAt_afterToken ?_ hts hend
      exact h.sim.bind fun _ _ he => (firm_expect (by decide) _).sim.bind fun _ _ _ => sim_pure he
    | _ => exact simAt_leaf ht hts hend
  · simp only [hk, leaf?, misplaced]
    exact lost_unexpectedEnd hend

/-! ## Shapes -/

theorem firm_point (opening closing : String) : L.Firm L.pair (point e opening closing) :=
  (firm_expect (by decide) _).bind fun _ _ _ => h.sim.bind fun _ _ hx =>
    (firm_expect (by decide) _).sim.bind fun _ _ _ => h.sim.bind fun _ _ hy =>
    (firm_expect (by decide) _).sim.bind fun _ _ _ => sim_pure ⟨hx, hy⟩

theorem firm_place (shape : ShapeKind) : L.Firm L.pair (Parser.place e shape) :=
  (firm_expectWord "at" _).bind fun _ _ _ => (firm_point h _ _).sim

theorem firm_field (word : String) : L.Firm L.expr (field e word) :=
  (firm_expectWord word _).bind fun _ _ _ => h.sim

theorem sim_rotation : L.Sim L.optional (rotation e) (rotation e) := by
  have hline : ∀ t : Token, t.kind = .newline ∨ t.kind = .eof → ¬ t.kind = .command .rotate := by
    rintro t (hk | hk) <;> simp [hk]
  refine sim_lookHere none none (fun t hk => if_neg (hline t hk)) (fun t hk => if_neg (hline t hk))
    rfl fun ts ts' t t' hts ht hend => ?_
  rw [← L.kind_eq ht]
  split_ifs with hk
  · refine simAt_afterToken ?_ hts (hend (by rw [hk]; rfl))
    exact h.sim.bind fun _ _ he => sim_pure (congrArg some he)
  · exact simAt_pure (V := L.optional) rfl hts

theorem sim_optionalField (word : String) :
    L.Sim L.optional (optionalField e word) (optionalField e word) := by
  have hline : ∀ t : Token, t.kind = .newline ∨ t.kind = .eof → ¬ isWord word t = true := by
    rintro t (hk | hk) <;> simp [isWord, hk]
  refine sim_lookHere none none (fun t hk => if_neg (hline t hk)) (fun t hk => if_neg (hline t hk))
    rfl fun ts ts' t t' hts ht hend => ?_
  rw [← isWord_eq word ht]
  split_ifs with hk
  · refine simAt_afterToken ?_ hts (hend ?_)
    · exact h.sim.bind fun _ _ he => sim_pure (congrArg some he)
    · rw [isWord, Bool.and_eq_true, beq_iff_eq] at hk
      rw [hk.1]
      rfl
  · exact simAt_pure (V := L.optional) rfl hts

theorem firm_textContent : L.Firm L.expr (textContent n e) := by
  refine firm_look (fun ts ts' t t' hts hend ht => ?_) fun ts hend hk => ?_
  · rw [← L.kind_eq ht]
    split_ifs
    · exact (firm_primary h n).sim ts ts' hts
    · exact simAt_failAt ht (.missing _ ht) hts
  · rw [if_neg (by simp [hk])]
    exact lost_missing hend _

omit h in
theorem fontOf_alike {a b : Option Expr} (hab : L.optional a b) :
    (fontOf a).map (fun (p, name) => (L.place p, name)) =
      (fontOf b).map fun (p, name) => (L.place p, name) := by
  have hfont : ∀ a : Option Expr, (fontOf a).map (fun (p, name) => (L.place p, name)) =
      fontOf (Expr.relocateOptional L.place a) := by
    rintro (_ | (_ | _ | _ | _ | _ | _ | _ | _ | _ | _ | _ | _ | _ | _ | _)) <;> rfl
  rw [hfont, hfont, hab]

/-- Shapes that are equal once their places are compared. -/
abbrev shape (L : Likeness) (s s' : Shape) : Prop := s.relocate L.place = s'.relocate L.place

theorem sim_shapeParts (kind : ShapeKind) :
    L.Sim L.shape (shapeParts n e kind) (shapeParts n e kind) := by
  cases kind with
  | circle =>
    exact (firm_place h _).sim.bind fun ⟨_, _⟩ ⟨_, _⟩ ⟨hx, hy⟩ =>
      (firm_field h _).sim.bind fun _ _ hsize => (firm_field h _).sim.bind fun _ _ hcolor =>
      sim_pure (by simp only [shape, Shape.relocate, hx, hy, hsize, hcolor])
  | rect =>
    exact (firm_place h _).sim.bind fun ⟨_, _⟩ ⟨_, _⟩ ⟨hx, hy⟩ =>
      (firm_field h _).sim.bind fun _ _ hwidth => (firm_field h _).sim.bind fun _ _ hheight =>
      (firm_field h _).sim.bind fun _ _ hcolor =>
      sim_pure (by simp only [shape, Shape.relocate, hx, hy, hwidth, hheight, hcolor])
  | line =>
    exact (firm_point h _ _).sim.bind fun ⟨_, _⟩ ⟨_, _⟩ ⟨hx₁, hy₁⟩ =>
      (firm_point h _ _).sim.bind fun ⟨_, _⟩ ⟨_, _⟩ ⟨hx₂, hy₂⟩ =>
      (firm_field h _).sim.bind fun _ _ hcolor =>
      sim_pure (by simp only [shape, Shape.relocate, hx₁, hy₁, hx₂, hy₂, hcolor])
  | triangle =>
    exact (firm_point h _ _).sim.bind fun ⟨_, _⟩ ⟨_, _⟩ ⟨hx₁, hy₁⟩ =>
      (firm_point h _ _).sim.bind fun ⟨_, _⟩ ⟨_, _⟩ ⟨hx₂, hy₂⟩ =>
      (firm_point h _ _).sim.bind fun ⟨_, _⟩ ⟨_, _⟩ ⟨hx₃, hy₃⟩ =>
      (firm_field h _).sim.bind fun _ _ hcolor =>
      sim_pure (by simp only [shape, Shape.relocate, hx₁, hy₁, hx₂, hy₂, hx₃, hy₃, hcolor])
  | polygon =>
    exact (firm_place h _).sim.bind fun ⟨_, _⟩ ⟨_, _⟩ ⟨hx, hy⟩ =>
      (firm_field h _).sim.bind fun _ _ hsides => (firm_field h _).sim.bind fun _ _ hradius =>
      (firm_field h _).sim.bind fun _ _ hcolor => (sim_rotation h).bind fun _ _ hturn =>
      sim_pure (by simp only [shape, Shape.relocate, hx, hy, hsides, hradius, hcolor, hturn])
  | ellipse =>
    exact (firm_place h _).sim.bind fun ⟨_, _⟩ ⟨_, _⟩ ⟨hx, hy⟩ =>
      h.sim.bind fun _ _ hradiusX => h.sim.bind fun _ _ hradiusY =>
      (firm_field h _).sim.bind fun _ _ hcolor => (sim_rotation h).bind fun _ _ hturn =>
      sim_pure (by simp only [shape, Shape.relocate, hx, hy, hradiusX, hradiusY, hcolor, hturn])
  | arc =>
    exact (firm_place h _).sim.bind fun ⟨_, _⟩ ⟨_, _⟩ ⟨hx, hy⟩ =>
      (firm_field h _).sim.bind fun _ _ hradius => (firm_field h _).sim.bind fun _ _ hstart =>
      (firm_field h _).sim.bind fun _ _ hstop => (firm_field h _).sim.bind fun _ _ hcolor =>
      sim_pure (by simp only [shape, Shape.relocate, hx, hy, hradius, hstart, hstop, hcolor])
  | text =>
    exact (firm_place h _).sim.bind fun ⟨_, _⟩ ⟨_, _⟩ ⟨hx, hy⟩ =>
      (firm_textContent h n).sim.bind fun _ _ hcontent =>
      (firm_field h _).sim.bind fun _ _ hcolor => (sim_optionalField h _).bind fun _ _ hfont =>
      (sim_optionalField h _).bind fun _ _ hsize =>
      sim_pure (by simp only [shape, Shape.relocate, hx, hy, hcontent, hcolor, hsize,
        fontOf_alike hfont])

theorem firm_shapeOrPrimary : L.Firm L.expr (shapeOrPrimary n e) := by
  refine firm_look (fun ts ts' t t' hts hend ht => ?_) fun ts hend hk => ?_
  · rw [← L.kind_eq ht]
    cases hk : t.kind with
    | shape kind =>
      refine simAt_afterToken ?_ hts hend
      exact (sim_shapeParts h n kind).bind fun _ _ hs =>
        sim_pure (by rw [expr, Expr.relocate, Expr.relocate, L.place_eq ht, hs])
    | _ => exact (firm_primary h n).sim ts ts' hts
  · simp only [hk]
    exact (firm_primary h n).failsAtEnd ts hend

/-! ## Operators -/

theorem sim_accesses : ∀ k {a b : Expr}, L.expr a b → L.Sim L.expr (accesses n e k a) (accesses n e k b)
  | 0, _, _, _ => firm_exhausted.sim
  | k + 1, a, b, hab => by
    refine sim_lookHere a b (fun t hk => by rcases hk with hk | hk <;> simp only [hk])
      (fun t hk => by rcases hk with hk | hk <;> simp only [hk]) hab
      fun ts ts' t t' hts ht hend => ?_
    rw [← L.kind_eq ht]
    cases hk : t.kind with
    | lparen =>
      refine simAt_afterToken ?_ hts (hend (by rw [hk]; rfl))
      exact (sim_itemsUntil h n (by decide) _).bind fun _ _ hargs =>
        sim_accesses k (by rw [expr, Expr.relocate, Expr.relocate, hab, relocateAll_eq hargs])
    | dot =>
      refine simAt_afterToken ?_ hts (hend (by rw [hk]; rfl))
      exact (firm_name _).sim.bind fun _ _ hname =>
        sim_accesses k (by rw [expr, Expr.relocate, Expr.relocate, hab, hname])
    | lbracket =>
      refine simAt_afterToken ?_ hts (hend (by rw [hk]; rfl))
      exact h.sim.bind fun _ _ hkey => (firm_expect (by decide) _).sim.bind fun _ _ _ =>
        sim_accesses k (by rw [expr, Expr.relocate, Expr.relocate, hab, hkey])
    | _ => exact simAt_pure hab hts

theorem firm_access : L.Firm L.expr (access n e) :=
  (firm_shapeOrPrimary h n).bind fun _ _ hab => sim_accesses h n n hab

theorem firm_negations : ∀ k, L.Firm L.expr (negations e k)
  | 0 => firm_exhausted
  | k + 1 => by
    refine firm_look (fun ts ts' t t' hts hend ht => ?_) fun ts hend hk => ?_
    · rw [← L.kind_eq ht]
      split_ifs
      · refine simAt_afterToken ?_ hts hend
        exact (firm_negations k).sim.bind fun _ _ hab =>
          sim_pure (by rw [expr, Expr.relocate, Expr.relocate, L.place_eq ht, hab])
      · exact h.sim ts ts' hts
    · rw [if_neg (by simp [hk])]
      exact h.failsAtEnd ts hend

theorem sim_operations (level : Level) :
    ∀ k {a b : Expr}, L.expr a b → L.Sim L.expr (operations level e k a) (operations level e k b)
  | 0, _, _, _ => firm_exhausted.sim
  | k + 1, a, b, hab => by
    refine sim_lookHere a b (fun t hk => by rcases hk with hk | hk <;> simp only [hk])
      (fun t hk => by rcases hk with hk | hk <;> simp only [hk]) hab
      fun ts ts' t t' hts ht hend => ?_
    rw [← L.kind_eq ht]
    cases hk : t.kind with
    | operator op =>
      dsimp only
      split_ifs
      · refine simAt_afterToken ?_ hts (hend (by rw [hk]; rfl))
        exact h.sim.bind fun _ _ hright => sim_operations level k
          (by rw [expr, Expr.relocate, Expr.relocate, L.place_eq ht, hab, hright])
      · exact simAt_pure hab hts
    | _ => exact simAt_pure hab hts

theorem firm_joined (level : Level) : L.Firm L.expr (joined n level e) :=
  h.bind fun _ _ hab => sim_operations h level n hab

theorem firm_comparison : L.Firm L.expr (comparison n e) :=
  firm_joined (firm_joined (firm_joined (firm_negations (firm_access h n) n) n _) n _) n _

theorem firm_assignment : L.Firm L.expr (assignment n e) := by
  refine (firm_comparison h n).bind fun a b hab => ?_
  have hline : ∀ t : Token, t.kind = .newline ∨ t.kind = .eof → ¬ t.kind = .assign := by
    rintro t (hk | hk) <;> simp [hk]
  refine sim_lookHere a b (fun t hk => if_neg (hline t hk)) (fun t hk => if_neg (hline t hk)) hab
    fun ts ts' t t' hts ht hend => ?_
  have htarget : a.isTarget = b.isTarget := by
    rw [← Expr.isTarget_relocate L.place a, hab, Expr.isTarget_relocate]
  rw [← L.kind_eq ht, ← htarget]
  split_ifs with hk
  · refine simAt_afterToken ?_ hts (hend (by rw [hk]; rfl))
    exact h.sim.bind fun _ _ hvalue =>
      sim_pure (by rw [expr, Expr.relocate, Expr.relocate, hab, hvalue])
  · refine simAt_afterToken (fun ts ts' hts => ?_) hts (hend (by rw [hk]; rfl))
    exact simAt_failAt ht (.refl _) hts
  · exact simAt_pure hab hts

end Expressions

/-- An expression is read alike from like lists. -/
theorem firm_expressionWithin : ∀ n, L.Firm L.expr (expressionWithin n)
  | 0 => firm_exhausted
  | n + 1 => firm_assignment (firm_expressionWithin n) n

/-! ## Commands -/

/-- Motions that are equal once their places are compared. -/
abbrev motion (L : Likeness) (m m' : Motion) : Prop := m.relocate L.place = m'.relocate L.place

/-- Commands that are equal once their places are compared. -/
abbrev command (L : Likeness) (c c' : Command) : Prop := c.relocate L.place = c'.relocate L.place

section Commands

variable {e : Parser Expr} (h : L.Firm L.expr e) (n : Nat)
include h

theorem firm_argument : L.Firm L.expr (argument n e) := firm_negations (firm_primary h n) n

theorem sim_optionalArgument :
    L.Sim L.optional (optionalArgument n e) (optionalArgument n e) := by
  have hline : ∀ t : Token, t.kind = .newline ∨ t.kind = .eof → ¬ startsArgument t.kind = true := by
    rintro t (hk | hk) <;> simp [hk, startsArgument]
  refine sim_lookHere none none (fun t hk => if_neg (hline t hk)) (fun t hk => if_neg (hline t hk))
    rfl fun ts ts' t t' hts ht _ => ?_
  rw [← L.kind_eq ht]
  split_ifs
  · exact ((firm_argument h n).sim ts ts' hts).bind fun _ _ he => sim_pure (congrArg some he)
  · exact simAt_pure (V := L.optional) rfl hts

omit h in
theorem sim_direction : L.Sim Eq direction direction := by
  refine sim_lookHere .right .right (fun t hk => by rcases hk with hk | hk <;> rw [hk] <;> rfl)
    (fun t hk => by rcases hk with hk | hk <;> rw [hk] <;> rfl) rfl
    fun ts ts' t t' hts ht hend => ?_
  rw [← L.kind_eq ht, ← lexeme_eq ht]
  split_ifs with hk
  · cases Direction.ofSpelling? t.lexeme with
    | some d =>
      refine simAt_afterToken ?_ hts (hend (by rw [hk]; rfl))
      exact sim_pure rfl
    | none => exact simAt_pure rfl hts
  · exact simAt_pure rfl hts

theorem sim_motion (kind : CommandKind) :
    L.Sim L.motion (Parser.motion n e kind) (Parser.motion n e kind) := by
  have hargument := (firm_argument h n).sim
  have hoptional := sim_optionalArgument h n
  cases kind with
  | move =>
    exact hargument.bind fun _ _ ha => sim_direction.bind fun _ _ hd =>
      sim_pure (by simp only [motion, Motion.relocate, ha, hd])
  | rotate | scale | fade =>
    exact hargument.bind fun _ _ ha => sim_pure (by simp only [motion, Motion.relocate, ha])
  | bounce => exact hoptional.bind fun _ _ ha => sim_pure (by simp only [motion, Motion.relocate, ha])
  | wave =>
    exact hargument.bind fun _ _ ha => hargument.bind fun _ _ hf =>
      sim_pure (by simp only [motion, Motion.relocate, ha, hf])
  | orbit =>
    exact hargument.bind fun _ _ hx => hargument.bind fun _ _ hy => hargument.bind fun _ _ hr =>
      hargument.bind fun _ _ hs => sim_pure (by simp only [motion, Motion.relocate, hx, hy, hr, hs])
  | pulse =>
    exact hargument.bind fun _ _ hmin => hargument.bind fun _ _ hmax => hoptional.bind fun _ _ hs =>
      sim_pure (by simp only [motion, Motion.relocate, hmin, hmax, hs])
  | wobble =>
    exact hargument.bind fun _ _ ha => hoptional.bind fun _ _ hs =>
      sim_pure (by simp only [motion, Motion.relocate, ha, hs])
  | spring =>
    refine hargument.bind fun _ _ hx => hargument.bind fun _ _ hy =>
      hoptional.bind fun stiffness stiffness' hs => Sim.bind (V := L.optional) ?_ fun _ _ hd =>
      sim_pure (by simp only [motion, Motion.relocate, hx, hy, hs, hd])
    -- damping may follow stiffness only, and both runs found it or neither did
    cases stiffness <;> cases stiffness'
    · exact sim_pure rfl
    · cases hs
    · cases hs
    · exact hoptional

omit h in
theorem idle_commands : ∀ k, Idle (commands n e k)
  | 0, _, _ => ⟨[], rfl⟩
  | k + 1, ts, hk => by
    rw [commands, look_bind]
    simp only [hk]
    exact ⟨[], rfl⟩

theorem openSim_commands :
    ∀ k, L.OpenSim (List.Forall₂ L.command) (commands n e k) (commands n e k)
  | 0 => (sim_pure .nil).open
  | k + 1 => by
    have hskip := openSim_discard (f := fun _ => commands n e k) L.list_toCommand
      (idle_commands n k) (openSim_commands k)
    refine openSim_look (idle_commands n (k + 1)) fun ts ts' t t' hts hend ht => ?_
    rw [← L.kind_eq ht]
    cases hk : t.kind with
    | rbrace | eof => exact .inl (simAt_pure .nil hts)
    | command kind =>
      refine openSimAt_afterToken ?_
      refine (sim_motion h n kind _ _ (L.list_afterNext hts hend)).bindAttempt ?_ ?_ ?_
      · refine fun m m' hm => fun ts ts' hts => (sim_skipSemicolon ts ts' hts).bindOpen fun _ _ _ =>
          (openSim_commands k).map fun _ _ hrest => .cons ?_ hrest
        rw [command, Command.relocate, Command.relocate, L.place_eq ht, hm]
      · exact fun g g' hg ts ts' hts => openSimAt_report hg (hskip ts ts' hts)
      · exact fun g rest hg => lost_report hg
    | _ =>
      refine openSimAt_report (.of_token ht (.unknownCommand ht)) ?_
      exact hskip _ _ (L.list_afterNext hts hend)

end Commands

/-! ## Statements -/

/-- Statements that are equal once their places are compared. -/
abbrev stmt (L : Likeness) (s s' : Stmt) : Prop := s.relocate L.place = s'.relocate L.place

/-- Bodies that are equal once their places are compared. -/
abbrev body (L : Likeness) (ss ss' : List Stmt) : Prop :=
  Stmt.relocateAll L.place ss = Stmt.relocateAll L.place ss'

/-- Bindings that are equal once their places are compared. -/
abbrev binding (L : Likeness) (b b' : Binding) : Prop := b.relocate L.place = b'.relocate L.place

/-- First clauses of a loop that are equal once their places are compared. -/
abbrev clause (L : Likeness) (c c' : Option Init) : Prop :=
  c.map (Init.relocate L.place) = c'.map (Init.relocate L.place)

section Statements

variable {e : Parser Expr} (h : L.Firm L.expr e) (n : Nat) {statements : Parser (List Stmt)}
  (hs : L.OpenSim L.body statements statements) {p p' : Position} (hp : L.place p = L.place p')

include hs in
theorem firm_block (opening closing : String) : L.Firm L.body (block statements opening closing) :=
  (firm_expect (by decide) opening).bind fun _ _ _ => hs.bind
    (fun _ _ hbody => (firm_expect (by decide) closing).sim.bind fun _ _ _ => sim_pure hbody)
    fun _ => (firm_expect (by decide) closing).failsAtEnd.bind

include h hp in
theorem sim_bindingAfter : L.Sim L.binding (bindingAfter e p) (bindingAfter e p') :=
  (firm_name _).sim.bind fun _ _ hid => (firm_expect (by decide) _).sim.bind fun _ _ _ =>
    h.sim.bind fun _ _ hvalue => sim_pure (by simp only [binding, Binding.relocate, hp, hid, hvalue])

include hs hp in
theorem sim_functionAfter :
    L.Sim L.stmt (functionAfter n statements p) (functionAfter n statements p') :=
  (firm_name _).sim.bind fun _ _ hid => (firm_expect (by decide) _).sim.bind fun _ _ _ =>
    (sim_itemsUntil (firm_name _) n (by decide) _).bind fun _ _ hparams =>
    (firm_block hs _ _).sim.bind fun _ _ hbody =>
    sim_pure (by simp only [stmt, Stmt.relocate, hp, hid, hbody, map_eq_of_forall₂ hparams])

include h hp in
theorem sim_returnAfter : L.Sim L.stmt (returnAfter e p) (returnAfter e p') := by
  have hnone : L.stmt (.ret p none) (.ret p' none) := by simp only [stmt, Stmt.relocate, hp]
  have hsome : L.Sim L.stmt (e >>= fun v => pure (.ret p (some v)))
      (e >>= fun v => pure (.ret p' (some v))) :=
    h.sim.bind fun _ _ hvalue =>
      sim_pure (by simp only [stmt, Stmt.relocate, Expr.relocateOptional, hp, hvalue])
  refine sim_lookHere (.ret p none) (.ret p' none)
    (fun t hk => by rcases hk with hk | hk <;> simp only [hk])
    (fun t hk => by rcases hk with hk | hk <;> simp only [hk]) hnone
    fun ts ts' t t' hts ht hend => ?_
  rw [← L.kind_eq ht]
  cases hk : t.kind with
  | newline | rbrace | semicolon | eof => exact simAt_pure hnone hts
  | _ => exact hsome ts ts' hts

include h hs in
theorem sim_ifAfter : ∀ k {p p' : Position}, L.place p = L.place p' →
    L.Sim L.stmt (ifAfter e statements k p) (ifAfter e statements k p')
  | 0, _, _, _ => firm_exhausted.sim
  | k + 1, p, p', hp => by
    refine h.sim.bind fun c c' hc => (firm_block hs _ _).sim.bind fun b b' hb => ?_
    have hthen : L.stmt (.ifThen p c b) (.ifThen p' c' b') := by
      simp only [stmt, Stmt.relocate, hp, hc, hb]
    intro ts ts' hts
    rw [SimAt, look_bind, look_bind]
    by_cases hend : L.ended ts
    · rw [if_neg (by simp [L.kind_peek_of_ended hend]), if_neg (L.not_optional hts hend).2]
      exact simAt_pure hthen hts
    rw [← L.kind_eq (L.token_peek hts hend)]
    split_ifs with helse
    swap
    · exact simAt_pure hthen hts
    refine simAt_afterToken (V := L.stmt) ?_ hts hend
    refine sim_look (fun ts ts' t t' hts hend ht => ?_) fun ts hend hk => ?_
    · rw [← L.kind_eq ht]
      split_ifs
      · refine simAt_afterToken ?_ hts hend
        exact (sim_ifAfter k (L.place_eq ht)).bind fun _ _ hnested =>
          sim_pure (by simp only [stmt, Stmt.relocate, Stmt.relocateAll, hp, hc, hb, hnested])
      · exact ((firm_block hs _ _).sim ts ts' hts).bind fun _ _ ha =>
          sim_pure (by simp only [stmt, Stmt.relocate, hp, hc, hb, ha])
    · rw [if_neg (by simp [hk])]
      exact ((firm_block hs _ _).failsAtEnd ts hend).bind

include h hs hp in
theorem sim_repeatAfter : L.Sim L.stmt (repeatAfter e statements p) (repeatAfter e statements p') :=
  h.sim.bind fun _ _ hc => (firm_block hs _ _).sim.bind fun _ _ hb =>
    sim_pure (by simp only [stmt, Stmt.relocate, hp, hc, hb])

include h hs hp in
theorem sim_whileAfter : L.Sim L.stmt (whileAfter e statements p) (whileAfter e statements p') :=
  h.sim.bind fun _ _ hc => (firm_block hs _ _).sim.bind fun _ _ hb =>
    sim_pure (by simp only [stmt, Stmt.relocate, hp, hc, hb])

include h in
theorem firm_initClause : L.Firm L.clause (initClause e) := by
  have hexpr : L.Firm L.clause (e >>= fun a => pure (some (.expr a))) := h.bind fun _ _ he =>
    sim_pure (by simp only [clause, Option.map_some, Init.relocate, he])
  refine firm_look (fun ts ts' t t' hts hend ht => ?_) fun ts hend hk => ?_
  · rw [← L.kind_eq ht]
    split
    · exact simAt_pure (V := L.clause) rfl hts
    · refine simAt_afterToken ?_ hts hend
      exact (sim_bindingAfter h (L.place_eq ht)).bind fun _ _ hb =>
        sim_pure (by simp only [clause, Option.map_some, Init.relocate, hb])
    · exact hexpr.sim ts ts' hts
  · simp only [hk]
    exact hexpr.failsAtEnd ts hend

include h in
theorem firm_updateClause : L.Firm L.optional (updateClause e) := by
  have hexpr : L.Firm L.optional (e >>= fun a => pure (some a)) := h.bind fun _ _ he =>
    sim_pure (congrArg some he)
  refine firm_look (fun ts ts' t t' hts hend ht => ?_) fun ts hend hk => ?_
  · rw [← L.kind_eq ht]
    split_ifs
    · exact simAt_pure (V := L.optional) rfl hts
    · exact hexpr.sim ts ts' hts
  · rw [if_neg (by simp [hk])]
    exact hexpr.failsAtEnd ts hend

include h hs hp in
theorem sim_forAfter : L.Sim L.stmt (forAfter e statements p) (forAfter e statements p') :=
  (firm_expect (by decide) _).sim.bind fun _ _ _ => (firm_initClause h).sim.bind fun _ _ hinit =>
    (firm_expect (by decide) _).sim.bind fun _ _ _ => h.sim.bind fun _ _ hc =>
    (firm_expect (by decide) _).sim.bind fun _ _ _ => (firm_updateClause h).sim.bind fun _ _ hu =>
    (firm_expect (by decide) _).sim.bind fun _ _ _ => (firm_block hs _ _).sim.bind fun _ _ hb =>
    sim_pure (by simp only [stmt, Stmt.relocate, hp, hinit, hc, hu, hb])

theorem firm_importedNames : L.Firm (List.Forall₂ L.ident) (importedNames n) := by
  have hnames : L.Firm (List.Forall₂ L.ident) (items n (name "Expected imported name") >>= fun names =>
      expectWord "from" "Expected \"from\" after imported names" >>= fun _ => pure names) :=
    ⟨(openSim_items (firm_name _).sim n).bind
      (fun _ _ hnames => (firm_expectWord _ _).sim.bind fun _ _ _ => sim_pure hnames)
      fun _ => (firm_expectWord _ _).failsAtEnd.bind, (firm_name _).failsAtEnd.bind.bind⟩
  refine firm_look (fun ts ts' t t' hts hend ht => ?_) fun ts hend hk => ?_
  · rw [← L.kind_eq ht]
    split_ifs
    · exact simAt_pure .nil hts
    · exact hnames.sim ts ts' hts
  · rw [if_neg (by simp [hk])]
    exact hnames.failsAtEnd ts hend

include hp in
theorem sim_importAfter : L.Sim L.stmt (importAfter n p) (importAfter n p') :=
  (firm_importedNames n).sim.bind fun _ _ hnames => (firm_expect (by decide) _).sim.bind
    fun _ _ hpath => sim_pure (by
      simp only [stmt, Stmt.relocate, hp, lexeme_eq hpath, map_eq_of_forall₂ hnames])

include hs hp in
theorem sim_sceneAfter : L.Sim L.stmt (sceneAfter statements p) (sceneAfter statements p') :=
  (firm_name _).sim.bind fun _ _ hid => (firm_block hs _ _).sim.bind fun _ _ hb =>
    sim_pure (by simp only [stmt, Stmt.relocate, hp, hb, (Ident.mk.inj hid).2])

include h hp in
theorem sim_animateAfter : L.Sim L.stmt (animateAfter n e p) (animateAfter n e p') :=
  (firm_expect (by decide) _).sim.bind fun _ _ _ => (openSim_commands h n n).bind
    (fun _ _ hlist => (firm_expect (by decide) _).sim.bind fun _ _ _ =>
      sim_pure (by simp only [stmt, Stmt.relocate, hp, map_eq_of_forall₂ hlist]))
    fun _ => (firm_expect (by decide) _).failsAtEnd.bind

include h hs hp in
/-- What a keyword starts is read alike, and the same keywords start nothing. -/
theorem keywordStatement?_alike (word : Keyword) :
    Option.Rel (L.Sim L.stmt) (keywordStatement? n e statements p word)
      (keywordStatement? n e statements p' word) := by
  cases word with
  | letKw =>
    exact .some ((sim_bindingAfter h hp).bind fun _ _ hb =>
      sim_pure (by simp only [stmt, Stmt.relocate, hb]))
  | fnKw => exact .some (sim_functionAfter n hs hp)
  | returnKw => exact .some (sim_returnAfter h hp)
  | ifKw => exact .some (sim_ifAfter h hs n hp)
  | repeatKw => exact .some (sim_repeatAfter h hs hp)
  | whileKw => exact .some (sim_whileAfter h hs hp)
  | forKw => exact .some (sim_forAfter h hs hp)
  | importKw => exact .some (sim_importAfter n hp)
  | sceneKw => exact .some (sim_sceneAfter hs hp)
  | animateKw => exact .some (sim_animateAfter h n hp)
  | elseKw | trueKw | falseKw | nullKw => exact .none

include h in
theorem firm_exprStatement : L.Firm L.stmt (exprStatement e) :=
  h.bind fun _ _ he => sim_pure (by simp only [stmt, Stmt.relocate, he])

include h hs in
theorem firm_bareStatement : L.Firm L.stmt (bareStatement n e statements) := by
  refine firm_look (fun ts ts' t t' hts hend ht => ?_) fun ts hend hk => ?_
  · rw [← L.kind_eq ht]
    cases hk : t.kind with
    | keyword word =>
      have hrel := keywordStatement?_alike h n hs (L.place_eq ht) word
      dsimp only
      generalize keywordStatement? n e statements t.position word = q at hrel ⊢
      generalize keywordStatement? n e statements t'.position word = q' at hrel ⊢
      cases hrel with
      | some hq => exact simAt_afterToken hq hts hend
      | none => exact (firm_exprStatement h).sim ts ts' hts
    | _ => exact (firm_exprStatement h).sim ts ts' hts
  · simp only [hk]
    exact (firm_exprStatement h).failsAtEnd ts hend

include h hs in
/-- A statement is read alike from like lists. -/
theorem firm_statement : L.Firm L.stmt (statement n e statements) :=
  (firm_bareStatement h n hs).bind fun _ _ hstmt => sim_skipSemicolon.bind fun _ _ _ =>
    sim_pure hstmt

end Statements

section StatementLists

variable {one : Parser Stmt} (inBlock : Bool)

theorem idle_statementList : ∀ k, Idle (statementList inBlock one k)
  | 0, _, _ => ⟨[], rfl⟩
  | k + 1, ts, hk => by
    rw [statementList, look_bind, if_pos (by rw [hk]; rfl)]
    exact ⟨[], rfl⟩

theorem openSim_statementList (h : L.Sim L.stmt one one) :
    ∀ k, L.OpenSim L.body (statementList inBlock one k) (statementList inBlock one k)
  | 0 => (sim_pure (V := L.body) rfl).open
  | k + 1 => by
    refine openSim_look (idle_statementList inBlock (k + 1)) fun ts ts' t t' hts hend ht => ?_
    rw [← L.kind_eq ht]
    split_ifs
    · exact .inl (simAt_pure (V := L.body) rfl hts)
    · refine openSimAt_skipLineEnds ?_
      refine (h _ _ (L.list_significant hts hend)).bindAttempt ?_ ?_ ?_
      · exact fun s s' hs => (openSim_statementList h k).map fun _ _ hrest =>
          by simp only [body, Stmt.relocateAll, hs, hrest]
      · exact fun g g' hg ts ts' hts => openSimAt_report hg <|
          openSim_discard (f := fun _ => statementList inBlock one k) (L.list_resume inBlock)
            (idle_statementList inBlock k) (openSim_statementList h k) ts ts' hts
      · exact fun g rest hg => lost_report hg

end StatementLists

/-- The statements of a block or of a program are read alike from like lists. -/
theorem openSim_statementsWithin :
    ∀ n inBlock, L.OpenSim L.body (statementsWithin n inBlock) (statementsWithin n inBlock)
  | 0, _ => (sim_pure (V := L.body) rfl).open
  | n + 1, inBlock => openSim_statementList inBlock
      (firm_statement (firm_expressionWithin (n + 1)) n (openSim_statementsWithin n true)).sim n

end Easel.Parser.Likeness
