import Easel.Proofs.Parser.Provenance

/-!
# Bounds on nesting and repetition

Parsers count down a number wherever they repeat or nest, and fail where it is used up.  Each
repetition consumes a token, so a number above the number of tokens is never used up: no fault says
so (`Outcome.Fed`), and two such numbers give the same outcome, for an expression
(`agreeBelow_expressionWithin`) and for a list of statements (`statementList_congr`).
-/

namespace Easel

variable {α β : Type}

/-! ## Parsers without bounds -/

/-- No fault of a run says that a bound is used up. -/
def Outcome.Fed (o : Outcome α) : Prop := ∀ f ∈ o.faults, f.problem ≠ .exhausted

theorem Outcome.Fed.reported {o : Outcome α} (h : o.Fed) :
    ∀ f ∈ o.reported, f.problem ≠ .exhausted := by
  cases hr : o.result with
  | error fault => exact fun f hf => h f (Parser.faults_of_error hr ▸ List.mem_append_left _ hf)
  | ok a => exact fun f hf => h f (Parser.faults_of_ok hr ▸ hf)

theorem Outcome.Fed.result {o : Outcome α} (h : o.Fed) {fault : Fault}
    (hr : o.result = .error fault) : fault.problem ≠ .exhausted := by
  refine h fault ?_
  rw [Parser.faults_of_error hr]
  exact List.mem_append_right _ (List.mem_singleton_self _)

namespace Parser

open Expr (hereditary_true)

theorem fed_bind {p : Parser α} {f : α → Parser β} {ts : List Token} (hp : (p ts).Fed)
    (hf : ∀ a, (p ts).result = .ok a → (f a (p ts).rest).Fed) : ((p >>= f) ts).Fed := by
  cases h : (p ts).result with
  | error fault =>
    unfold Outcome.Fed at hp ⊢
    rw [faults_of_error h] at hp
    rwa [bind_of_error h]
  | ok a =>
    unfold Outcome.Fed at hp hf ⊢
    rw [faults_of_ok h] at hp
    rw [bind_of_ok h, faults_append]
    exact List.forall_mem_append.2 ⟨hp, hf a h⟩

/-- The parser has no bound that could be used up. -/
class Unbounded (p : Parser α) : Prop where
  fed : ∀ ts, (p ts).Fed

namespace Unbounded

instance (a : α) : Unbounded (pure a) := ⟨fun _ => List.forall_mem_nil _⟩

instance (p : Parser α) (f : α → Parser β) [Unbounded p] [∀ a, Unbounded (f a)] :
    Unbounded (p >>= f) := ⟨fun ts => fed_bind (fed ts) fun _ _ => fed _⟩

instance (c : Prop) [Decidable c] (p q : Parser α) [Unbounded p] [Unbounded q] :
    Unbounded (if c then p else q) := ⟨fun ts => by split_ifs <;> exact fed ts⟩

instance : Unbounded look := ⟨fun _ => List.forall_mem_nil _⟩

instance : Unbounded lookHere := ⟨fun _ => List.forall_mem_nil _⟩

instance : Unbounded next := ⟨fun _ => List.forall_mem_nil _⟩

instance : Unbounded skipLineEnds := ⟨fun _ => List.forall_mem_nil _⟩

instance (d : List Token → List Token) : Unbounded (discard d) := ⟨fun _ => List.forall_mem_nil _⟩

theorem report {fault : Fault} (h : fault.problem ≠ .exhausted) : Unbounded (report fault) :=
  ⟨fun _ => List.forall_mem_singleton.2 h⟩

theorem failAt {problem : Problem} (t : Token) (h : problem ≠ .exhausted) :
    Unbounded (failAt t problem : Parser α) := ⟨fun _ => List.forall_mem_singleton.2 h⟩

instance (t found : Token) (expected : String) :
    Unbounded (Parser.failAt t (.missing expected found) : Parser α) := failAt t nofun

instance (t : Token) : Unbounded (Parser.failAt t .invalidTarget : Parser α) := failAt t nofun

instance (kind : Token.Kind) (expected : String) : Unbounded (expect kind expected) := by
  unfold expect
  infer_instance

instance (word expected : String) : Unbounded (expectWord word expected) := by
  unfold expectWord
  infer_instance

instance (kind : Token.Kind) : Unbounded (skipOptional kind) := by
  unfold skipOptional
  infer_instance

instance (expected : String) : Unbounded (name expected) := by
  unfold name
  infer_instance

instance (t t' : Token) : Unbounded (Parser.failAt t (misplaced t') : Parser α) :=
  failAt t (by
    unfold misplaced
    split
    · split_ifs <;> exact nofun
    · exact nofun
    · exact nofun)

instance (t : Token) : Unbounded (numberLiteral t) := ⟨fun ts => by
  have hfail : Unbounded (Parser.failAt t (.invalidNumber t.lexeme) : Parser Expr) :=
    failAt t nofun
  unfold numberLiteral
  cases Numeral.ofLiteral? t.lexeme.toList with
  | none => exact hfail.fed ts
  | some v => exact fed (p := pure (Expr.number t.position v)) ts⟩

instance : Unbounded direction := ⟨fun ts => by
  rw [direction, lookHere_bind]
  cases (if (ts.headD .beyond).kind = .identifier then
    Direction.ofSpelling? (ts.headD .beyond).lexeme else none) with
  | none => exact fed (p := pure Direction.right) ts
  | some d => exact fed (p := discard afterNext >>= fun _ => pure d) ts⟩

end Unbounded

/-! ## Agreement -/

/-- The parsers do the same on lists of fewer than `n` tokens, and use no bound up. -/
def AgreeBelow (n : Nat) (p q : Parser α) : Prop :=
  ∀ ts, ts.length < n → p ts = q ts ∧ (p ts).Fed

namespace AgreeBelow

variable {n : Nat}

theorem zero (p q : Parser α) : AgreeBelow 0 p q := fun _ hts => absurd hts (Nat.not_lt_zero _)

theorem refl (n : Nat) (p : Parser α) [Unbounded p] : AgreeBelow n p p :=
  fun ts _ => ⟨rfl, Unbounded.fed ts⟩

theorem mono {m : Nat} {p q : Parser α} (h : AgreeBelow n p q) (hm : m ≤ n) : AgreeBelow m p q :=
  fun ts hts => h ts (hts.trans_le hm)

theorem bind {P : α → Prop} {p q : Parser α} {f g : α → Parser β} (hp : AgreeBelow n p q)
    (hs : ReadsAny P p) (hf : ∀ a, AgreeBelow n (f a) (g a)) :
    AgreeBelow n (p >>= f) (q >>= g) := by
  intro ts hts
  obtain ⟨heq, hfed⟩ := hp ts hts
  have hrest (a : α) := hf a (p ts).rest ((hs.length_rest_le ts).trans_lt hts)
  refine ⟨?_, fed_bind hfed fun a _ => (hrest a).2⟩
  cases h : (p ts).result with
  | error fault => rw [bind_of_error h, bind_of_error (heq ▸ h), heq]
  | ok a => rw [bind_of_ok h, bind_of_ok (heq ▸ h), (hrest a).1, heq]

theorem after {P : α → Prop} {p : Parser α} [Unbounded p] {f g : α → Parser β}
    (hs : ReadsAny P p) (hf : ∀ a, AgreeBelow n (f a) (g a)) : AgreeBelow n (p >>= f) (p >>= g) :=
  (refl n p).bind hs hf

theorem ite {c : Prop} [Decidable c] {p p' q q' : Parser α} (hp : AgreeBelow n p p')
    (hq : AgreeBelow n q q') : AgreeBelow n (if c then p else q) (if c then p' else q') := by
  split_ifs
  · exact hp
  · exact hq

theorem afterDiscard {d : List Token → List Token} (hd : ∀ ts, d ts <:+ ts) {f g : Unit → Parser α}
    (h : AgreeBelow n (f ()) (g ())) : AgreeBelow n (discard d >>= f) (discard d >>= g) :=
  fun ts hts => h (d ts) ((hd ts).length_le.trans_lt hts)

/-- A token that is not the end of the text is consumed. -/
theorem afterToken {f g : Unit → Parser α} (h : AgreeBelow n (f ()) (g ())) {ts : List Token}
    (hts : ts.length < n + 1) (hk : (peek ts).kind ≠ .eof) :
    (discard afterNext >>= f) ts = (discard afterNext >>= g) ts ∧
      ((discard afterNext >>= f) ts).Fed :=
  h _ ((length_afterNext_lt hk).trans_le (Nat.le_of_lt_succ hts))

end AgreeBelow

/-! ## Repetition -/

theorem agreeBelow_moreItems {P : α → Prop} {item item' : Parser α} (hs : ReadsAny P item) :
    ∀ {n k k' : Nat}, AgreeBelow n item item' → n ≤ k → n ≤ k' →
      AgreeBelow n (moreItems item k) (moreItems item' k')
  | 0, _, _, _, _, _ => .zero _ _
  | n + 1, k + 1, k' + 1, h, hk, hk' => by
    intro ts hts
    have more := agreeBelow_moreItems hs (h.mono n.le_succ) (Nat.le_of_succ_le_succ hk)
      (Nat.le_of_succ_le_succ hk')
    simp only [moreItems, look_bind]
    split_ifs with hc
    · refine AgreeBelow.afterToken ?_ hts (by simp [hc])
      exact (h.mono n.le_succ).bind hs fun _ =>
        more.bind (reads_moreItems hs k) fun _ => .refl n _
    · exact AgreeBelow.refl _ _ ts hts

theorem agreeBelow_items {P : α → Prop} {item item' : Parser α} (hs : ReadsAny P item)
    {n k k' : Nat} (h : AgreeBelow n item item') (hk : n ≤ k) (hk' : n ≤ k') :
    AgreeBelow n (items k item) (items k' item') :=
  h.bind hs fun _ => (agreeBelow_moreItems hs h hk hk').bind (reads_moreItems hs k)
    fun _ => .refl n _

theorem agreeBelow_itemsUntil {P : α → Prop} {item item' : Parser α} (hs : ReadsAny P item)
    {n k k' : Nat} (h : AgreeBelow n item item') (hk : n ≤ k) (hk' : n ≤ k')
    (close : Token.Kind) (expected : String) :
    AgreeBelow n (itemsUntil k item close expected) (itemsUntil k' item' close expected) :=
  (AgreeBelow.after reads_look fun _ => .ite (.refl n _) (agreeBelow_items hs h hk hk')).bind
    (.look fun _ _ => .ite (fun _ => .pure (List.forall_mem_nil _)) fun _ => reads_items hs k _)
    fun _ => .refl n _

theorem agreeBelow_negations {operand operand' : Parser Expr} (hs : ReadsExpr operand) :
    ∀ {n k k' : Nat}, AgreeBelow n operand operand' → n ≤ k → n ≤ k' →
      AgreeBelow n (negations operand k) (negations operand' k')
  | 0, _, _, _, _, _ => .zero _ _
  | n + 1, k + 1, k' + 1, h, hk, hk' => by
    intro ts hts
    have more := agreeBelow_negations hs (h.mono n.le_succ) (Nat.le_of_succ_le_succ hk)
      (Nat.le_of_succ_le_succ hk')
    simp only [negations, look_bind]
    split_ifs with hc
    · exact AgreeBelow.afterToken (more.bind (reads_negations hereditary_true hs k)
        fun _ => .refl n _) hts (by simp [hc])
    · exact h _ hts

theorem kind_peek_ne {ts : List Token} {kind : Token.Kind} (h : (ts.headD .beyond).kind = kind)
    (hline : kind ≠ .newline) (hend : kind ≠ .eof) : (peek ts).kind ≠ .eof := by
  rwa [peek_eq_headD (h ▸ hline), h]

theorem agreeBelow_operations {operand operand' : Parser Expr} (hs : ReadsExpr operand)
    (level : Level) : ∀ {n k k' : Nat}, AgreeBelow n operand operand' → n ≤ k → n ≤ k' →
      ∀ e, AgreeBelow n (operations level operand k e) (operations level operand' k' e)
  | 0, _, _, _, _, _, _ => .zero _ _
  | n + 1, k + 1, k' + 1, h, hk, hk', e => by
    intro ts hts
    have more := agreeBelow_operations hs level (h.mono n.le_succ) (Nat.le_of_succ_le_succ hk)
      (Nat.le_of_succ_le_succ hk')
    simp only [operations, lookHere_bind]
    cases ht : (ts.headD .beyond).kind with
    | operator op =>
      dsimp only
      split_ifs
      · exact AgreeBelow.afterToken ((h.mono n.le_succ).bind hs fun _ => more _) hts
          (kind_peek_ne ht nofun nofun)
      · exact AgreeBelow.refl _ _ ts hts
    | _ => exact AgreeBelow.refl _ _ ts hts

theorem agreeBelow_joined {operand operand' : Parser Expr} (hs : ReadsExpr operand) (level : Level)
    {n k k' : Nat} (h : AgreeBelow n operand operand') (hk : n ≤ k) (hk' : n ≤ k') :
    AgreeBelow n (joined k level operand) (joined k' level operand') :=
  h.bind hs fun e => agreeBelow_operations hs level h hk hk' e

/-! ## Expressions -/

section Expressions

variable {expr expr' : Parser Expr} (he : ReadsExpr expr) {n k k' : Nat}
  (h : AgreeBelow n expr expr')
include he h

theorem agreeBelow_property : AgreeBelow n (property expr) (property expr') :=
  .after (reads_expect rfl _) fun _ =>
    .after (reads_expect rfl _) fun _ => h.bind he fun _ => .refl n _

theorem agreeBelow_point (opening closing : String) :
    AgreeBelow n (point expr opening closing) (point expr' opening closing) :=
  .after (reads_expect rfl _) fun _ => h.bind he fun _ =>
    .after (reads_expect rfl _) fun _ => h.bind he fun _ => .refl n _

theorem agreeBelow_place (kind : ShapeKind) : AgreeBelow n (place expr kind) (place expr' kind) :=
  .after (reads_expectWord _ _) fun _ => agreeBelow_point he h _ _

omit he in
theorem agreeBelow_field (word : String) : AgreeBelow n (field expr word) (field expr' word) :=
  .after (reads_expectWord _ _) fun _ => h

theorem agreeBelow_rotation : AgreeBelow n (rotation expr) (rotation expr') :=
  .after reads_lookHere fun _ => .ite
    (.afterDiscard afterNext_suffix (h.bind he fun _ => .refl n _))
    (.refl n _)

theorem agreeBelow_optionalField (word : String) :
    AgreeBelow n (optionalField expr word) (optionalField expr' word) :=
  .after reads_lookHere fun _ => .ite
    (.afterDiscard afterNext_suffix (h.bind he fun _ => .refl n _))
    (.refl n _)

variable (hk : n ≤ k) (hk' : n ≤ k')
include hk hk'

theorem agreeBelow_primary : AgreeBelow (n + 1) (primary k expr) (primary k' expr') := by
  intro ts hts
  simp only [primary, look_bind]
  cases ht : (peek ts).kind with
  | lbracket =>
    exact AgreeBelow.afterToken ((agreeBelow_itemsUntil he h hk hk' _ _).bind
      (reads_itemsUntil he _ rfl _) fun _ => .refl n _) hts (by simp [ht])
  | lbrace =>
    exact AgreeBelow.afterToken ((agreeBelow_itemsUntil (reads_property he)
      (agreeBelow_property he h) hk hk' _ _).bind
        (reads_itemsUntil (reads_property he) _ rfl _) fun _ => .refl n _) hts (by simp [ht])
  | lparen => exact AgreeBelow.afterToken (h.bind he fun _ => .refl n _) hts (by simp [ht])
  | number => exact AgreeBelow.afterToken (.refl n (numberLiteral _)) hts (by simp [ht])
  | _ =>
    dsimp only
    cases leaf? (peek ts) with
    | some e => exact AgreeBelow.refl _ (discard afterNext >>= fun _ => pure e) ts hts
    | none => exact AgreeBelow.refl _ (failAt _ _) ts hts

theorem agreeBelow_textContent : AgreeBelow n (textContent k expr) (textContent k' expr') :=
  .after reads_look fun _ =>
    .ite ((agreeBelow_primary he h hk hk').mono n.le_succ) (.refl n _)

theorem agreeBelow_shapeParts (kind : ShapeKind) :
    AgreeBelow n (shapeParts k expr kind) (shapeParts k' expr' kind) := by
  have at_ (s : ShapeKind) {f f' : Expr × Expr → Parser Shape}
      (hf : ∀ a, AgreeBelow n (f a) (f' a)) :=
    (agreeBelow_place he h s).bind (reads_place he s) hf
  have point_ (o c : String) {f f' : Expr × Expr → Parser Shape}
      (hf : ∀ a, AgreeBelow n (f a) (f' a)) :=
    (agreeBelow_point he h o c).bind (reads_point he o c) hf
  have field_ (w : String) {f f' : Expr → Parser Shape} (hf : ∀ a, AgreeBelow n (f a) (f' a)) :=
    (agreeBelow_field h w).bind (reads_field he w) hf
  have turn {f : Option Expr → Parser Shape} [∀ a, Unbounded (f a)] :=
    (agreeBelow_rotation he h).bind (reads_rotation he) fun a => .refl n (f a)
  cases kind with
  | circle => exact at_ _ fun _ => field_ _ fun _ => field_ _ fun _ => .refl n _
  | rect => exact at_ _ fun _ => field_ _ fun _ => field_ _ fun _ => field_ _ fun _ => .refl n _
  | line => exact point_ _ _ fun _ => point_ _ _ fun _ => field_ _ fun _ => .refl n _
  | triangle =>
    exact point_ _ _ fun _ => point_ _ _ fun _ => point_ _ _ fun _ => field_ _ fun _ => .refl n _
  | polygon => exact at_ _ fun _ => field_ _ fun _ => field_ _ fun _ => field_ _ fun _ => turn
  | ellipse => exact at_ _ fun _ => h.bind he fun _ => h.bind he fun _ => field_ _ fun _ => turn
  | arc =>
    exact at_ _ fun _ => field_ _ fun _ => field_ _ fun _ => field_ _ fun _ => field_ _ fun _ =>
      .refl n _
  | text =>
    exact at_ _ fun _ => (agreeBelow_textContent he h hk hk').bind
      (reads_textContent hereditary_true he k) fun _ => field_ _ fun _ =>
        (agreeBelow_optionalField he h _).bind (reads_optionalField he _) fun _ =>
          (agreeBelow_optionalField he h _).bind (reads_optionalField he _) fun _ => .refl n _

theorem agreeBelow_shapeOrPrimary :
    AgreeBelow (n + 1) (shapeOrPrimary k expr) (shapeOrPrimary k' expr') := by
  intro ts hts
  simp only [shapeOrPrimary, look_bind]
  cases ht : (peek ts).kind with
  | shape kind =>
    exact AgreeBelow.afterToken ((agreeBelow_shapeParts he h hk hk' _).bind
      (reads_shapeParts hereditary_true he k _) fun _ => .refl n _) hts (by simp [ht])
  | _ => exact agreeBelow_primary he h hk hk' ts hts

end Expressions

theorem agreeBelow_accesses {expr expr' : Parser Expr} (he : ReadsExpr expr) {m m' : Nat} :
    ∀ {n k k' : Nat}, AgreeBelow (n - 1) expr expr' → n ≤ m + 1 → n ≤ m' + 1 → n ≤ k → n ≤ k' →
      ∀ e, AgreeBelow n (accesses m expr k e) (accesses m' expr' k' e)
  | 0, _, _, _, _, _, _, _, _ => .zero _ _
  | n + 1, k + 1, k' + 1, h, hm, hm', hk, hk', e => by
    intro ts hts
    have h : AgreeBelow n expr expr' := h
    have more (e : Expr) := agreeBelow_accesses he (h.mono n.pred_le) (Nat.le_of_succ_le hm)
      (Nat.le_of_succ_le hm') (Nat.le_of_succ_le_succ hk) (Nat.le_of_succ_le_succ hk') e
    simp only [accesses, lookHere_bind]
    cases ht : (ts.headD .beyond).kind with
    | lparen =>
      exact AgreeBelow.afterToken ((agreeBelow_itemsUntil he h (Nat.le_of_succ_le_succ hm)
        (Nat.le_of_succ_le_succ hm') _ _).bind (reads_itemsUntil he _ rfl _) fun _ => more _) hts
        (kind_peek_ne ht nofun nofun)
    | dot =>
      exact AgreeBelow.afterToken (.after (reads_name _) fun _ => more _) hts
        (kind_peek_ne ht nofun nofun)
    | lbracket =>
      exact AgreeBelow.afterToken (h.bind he fun _ =>
        .after (reads_expect rfl _) fun _ => more _) hts (kind_peek_ne ht nofun nofun)
    | _ => exact AgreeBelow.refl _ _ ts hts

section Expressions

variable {expr expr' : Parser Expr} (he : ReadsExpr expr) {n k k' : Nat}
  (h : AgreeBelow n expr expr') (hk : n < k) (hk' : n < k')
include he h hk hk'

theorem agreeBelow_access : AgreeBelow (n + 1) (access k expr) (access k' expr') :=
  (agreeBelow_shapeOrPrimary he h hk.le hk'.le).bind
    (reads_shapeOrPrimary hereditary_true he k) fun e =>
      agreeBelow_accesses (n := n + 1) he h (hk.trans k.lt_succ_self)
        (hk'.trans k'.lt_succ_self) hk hk' e

theorem agreeBelow_assignment : AgreeBelow (n + 1) (assignment k expr) (assignment k' expr') := by
  have haccess := reads_access hereditary_true he k
  have hs := reads_negations hereditary_true haccess k
  have hs' := reads_joined hereditary_true hs k .multiplicative
  have hneg := agreeBelow_negations haccess (agreeBelow_access he h hk hk') hk hk'
  have hmul := agreeBelow_joined hs .multiplicative hneg hk hk'
  have hadd := agreeBelow_joined hs' .additive hmul hk hk'
  have hcmp : AgreeBelow (n + 1) (comparison k expr) (comparison k' expr') :=
    agreeBelow_joined (reads_joined hereditary_true hs' k _) .comparison hadd hk hk'
  refine hcmp.bind (reads_comparison hereditary_true he k) fun target ts hts => ?_
  rw [lookHere_bind, lookHere_bind]
  by_cases ht : (ts.headD .beyond).kind = .assign
  · rw [if_pos ht, if_pos ht]
    exact AgreeBelow.afterToken (AgreeBelow.ite (h.bind he fun _ => .refl n _) (.refl n _)) hts
      (kind_peek_ne ht nofun nofun)
  · rw [if_neg ht, if_neg ht]
    exact AgreeBelow.refl _ _ ts hts

end Expressions

/-- Expressions are read alike under any two bounds above the number of tokens. -/
theorem agreeBelow_expressionWithin : ∀ {n k k' : Nat}, n < k → n < k' →
    AgreeBelow n (expressionWithin k) (expressionWithin k')
  | 0, _, _, _, _ => .zero _ _
  | _ + 1, k + 1, _ + 1, hk, hk' =>
    agreeBelow_assignment (readsExpr_expressionWithin k)
      (agreeBelow_expressionWithin (Nat.lt_of_succ_lt_succ hk) (Nat.lt_of_succ_lt_succ hk'))
      (Nat.lt_of_succ_lt_succ hk) (Nat.lt_of_succ_lt_succ hk')

/-! ## Commands -/

section Commands

variable {expr expr' : Parser Expr} (he : ReadsExpr expr) {n k k' : Nat}
  (h : AgreeBelow n expr expr') (hk : n ≤ k) (hk' : n ≤ k')
include he h hk hk'

theorem agreeBelow_argument : AgreeBelow n (argument k expr) (argument k' expr') :=
  agreeBelow_negations (reads_primary hereditary_true he k)
    ((agreeBelow_primary he h hk hk').mono n.le_succ) hk hk'

theorem agreeBelow_optionalArgument :
    AgreeBelow n (optionalArgument k expr) (optionalArgument k' expr') :=
  .after reads_lookHere fun _ => .ite
    ((agreeBelow_argument he h hk hk').bind (reads_argument hereditary_true k he)
      fun _ => .refl n _) (.refl n _)

theorem agreeBelow_motion (kind : CommandKind) :
    AgreeBelow n (motion k expr kind) (motion k' expr' kind) := by
  have arg {f f' : Expr → Parser Motion} (hf : ∀ a, AgreeBelow n (f a) (f' a)) :=
    (agreeBelow_argument he h hk hk').bind (reads_argument hereditary_true k he) hf
  have opt {f f' : Option Expr → Parser Motion} (hf : ∀ a, AgreeBelow n (f a) (f' a)) :=
    (agreeBelow_optionalArgument he h hk hk').bind (reads_optionalArgument hereditary_true k he) hf
  cases kind with
  | move | rotate | scale | fade => exact arg fun _ => .refl n _
  | bounce => exact opt fun _ => .refl n _
  | wave => exact arg fun _ => arg fun _ => .refl n _
  | orbit => exact arg fun _ => arg fun _ => arg fun _ => arg fun _ => .refl n _
  | pulse => exact arg fun _ => arg fun _ => opt fun _ => .refl n _
  | wobble => exact arg fun _ => opt fun _ => .refl n _
  | spring =>
    refine arg fun _ => arg fun _ => opt fun s => ?_
    cases s with
    | none => exact .refl n _
    | some _ => exact opt fun _ => .refl n _

end Commands

/-! ## Statements -/

section Clauses

variable {expr expr' : Parser Expr} (he : ReadsExpr expr) {n : Nat} (h : AgreeBelow n expr expr')
include he h

theorem agreeBelow_bindingAfter (p : Position) :
    AgreeBelow n (bindingAfter expr p) (bindingAfter expr' p) :=
  .after (reads_name _) fun _ =>
    .after (reads_expect rfl _) fun _ => h.bind he fun _ => .refl n _

theorem agreeBelow_returnAfter (p : Position) :
    AgreeBelow n (returnAfter expr p) (returnAfter expr' p) := by
  refine .after reads_lookHere fun t => ?_
  cases t.kind with
  | newline | rbrace | semicolon | eof => exact .refl n _
  | _ => exact h.bind he fun _ => .refl n _

theorem agreeBelow_initClause : AgreeBelow n (initClause expr) (initClause expr') := by
  refine .after reads_look fun t => ?_
  have other := h.bind he fun e => .refl n (pure (some (Init.expr e)))
  cases t.kind with
  | semicolon => exact .refl n _
  | keyword word =>
    cases word with
    | letKw =>
      exact .afterDiscard afterNext_suffix
        ((agreeBelow_bindingAfter he h _).bind (reads_bindingAfter he (.any _)) fun _ => .refl n _)
    | _ => exact other
  | _ => exact other

theorem agreeBelow_updateClause : AgreeBelow n (updateClause expr) (updateClause expr') :=
  .after reads_look fun _ => .ite (.refl n _) (h.bind he fun _ => .refl n _)

omit he h in
theorem agreeBelow_importAfter {k k' : Nat} (hk : n ≤ k) (hk' : n ≤ k') (p : Position) :
    AgreeBelow n (importAfter k p) (importAfter k' p) :=
  (AgreeBelow.after reads_look fun _ => .ite (.refl n _) ((agreeBelow_items (reads_name _)
    (.refl n _) hk hk').bind (reads_items (reads_name _) k) fun _ => .refl n _)).bind
      (reads_importedNames k) fun _ => .refl n _

end Clauses

/-- A statement that could not be read leaves fewer tokens than there were before it: where it
passed none, reading goes on after the first. -/
theorem length_resume_lt_of_starts {P : Stmt → Prop} {one : Parser Stmt} (hs : ReadsAny P one)
    {inBlock : Bool} {ts : List Token} (hend : endsStatements inBlock (peek ts).kind = false) :
    (resume inBlock (one (significant ts)).rest).length < ts.length := by
  have hsignificant := (significant_suffix ts).length_le
  have hrest := hs.rest_suffix (significant ts)
  have hresume := resume_suffix inBlock (one (significant ts)).rest
  rcases hrest.length_le.lt_or_eq with hlt | heq
  · exact (hresume.length_le.trans_lt hlt).trans_le hsignificant
  · rw [hrest.eq_of_length heq] at hresume ⊢
    rw [← peek_significant] at hend
    have hweight := weight_resume_lt (significant_significant ts) hend
    refine (lt_of_le_of_ne hresume.length_le fun hlength => ?_).trans_le hsignificant
    rw [hresume.eq_of_length hlength] at hweight
    exact absurd hweight (Nat.lt_irrefl _)

/-- Statements are read alike under any two bounds that are not below the number of tokens. -/
theorem statementList_congr {P : Stmt → Prop} {inBlock : Bool} {one : Parser Stmt}
    (hs : ReadsAny P one) (hc : Consumes one) {k k' : Nat} {ts : List Token} (hk : ts.length ≤ k)
    (hk' : ts.length ≤ k') :
    statementList inBlock one k ts = statementList inBlock one k' ts := by
  induction k generalizing k' ts with
  | zero =>
    rw [List.length_eq_zero_iff.1 (Nat.le_zero.1 hk), statementList_of_ends rfl,
      statementList_of_ends rfl]
  | succ k ih =>
    cases hend : endsStatements inBlock (peek ts).kind with
    | true => rw [statementList_of_ends hend, statementList_of_ends hend]
    | false =>
      have hle := (significant_suffix ts).length_le
      have hlt := length_resume_lt_of_starts hs hend
      obtain ⟨k', rfl⟩ : ∃ j, k' = j + 1 := ⟨k' - 1, by omega⟩
      cases hr : (one (significant ts)).result with
      | ok s =>
        have hrest := hc _ s hr
        have hmore : statementList inBlock one k (one (significant ts)).rest = _ :=
          ih (by omega) (show _ ≤ k' by omega)
        rw [statementList_of_ok hend hr, statementList_of_ok hend hr]
        dsimp only
        rw [hmore]
      | error fault =>
        have hmore : statementList inBlock one k (resume inBlock (one (significant ts)).rest) = _ :=
          ih (by omega) (show _ ≤ k' by omega)
        rw [statementList_of_error hend hr, statementList_of_error hend hr]
        dsimp only
        rw [hmore]

end Parser

end Easel
