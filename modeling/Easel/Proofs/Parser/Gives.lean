import Easel.Proofs.Parser.Rest

/-!
# Running expression parsers

`Outcome.Gives` says what comes of a parser: a value with nothing reported, and the tokens that are
left, or else a fault.  Each expression parser has a rule for what it gives, in terms of what the
parsers inside it give.  A rule reads the tokens of its construct and stops at the token behind it.
-/

namespace Easel

variable {α β : Type}

/-- The parser gave the value and left `rest`, or stopped at a fault. -/
def Outcome.Gives (out : Outcome α) : Option α → List Token → Prop
  | some a, rest => out = ⟨.ok a, [], rest⟩
  | none, _ => ∃ fault, out.result = .error fault

namespace Parser

open Token (Kind)

theorem gives_bind {p : Parser α} {f : α → Parser β} {g : α → Option β} {o : Option α}
    {ts rest rest' : List Token} (hp : (p ts).Gives o rest)
    (hf : ∀ a, (f a rest).Gives (g a) rest') : ((p >>= f) ts).Gives (o.bind g) rest' := by
  cases o with
  | none =>
    obtain ⟨fault, hfault⟩ := hp
    exact ⟨fault, by rw [bind_of_error hfault]⟩
  | some a =>
    have hok : p ts = ⟨.ok a, [], rest⟩ := hp
    have hrun : (p >>= f) ts = f a rest := by
      rw [bind_of_ok (congrArg Outcome.result hok), hok]
      rfl
    rw [hrun]
    exact hf a

theorem gives_pure (a : α) (ts : List Token) : ((pure a : Parser α) ts).Gives (some a) ts := rfl

/-! ## Single tokens -/

section Tokens

variable {t : Token} {ts : List Token}

/-- Whether a token is neither a line end nor the end of the text. -/
def isVisible : Kind → Bool
  | .newline | .eof => false
  | _ => true

theorem isVisible_spec {kind : Kind} (h : isVisible kind = true) :
    kind ≠ .newline ∧ kind ≠ .eof := by
  constructor <;> rintro rfl <;> cases h

theorem peek_cons (h : isVisible t.kind = true) (ts : List Token) : peek (t :: ts) = t :=
  peek_cons_of_ne (isVisible_spec h).1 ts

theorem afterNext_cons (h : isVisible t.kind = true) (ts : List Token) :
    afterNext (t :: ts) = ts :=
  afterNext_of_significant (significant_cons_of_ne (isVisible_spec h).1 ts) (isVisible_spec h).2

theorem gives_expect {kind : Kind} (h : t.kind = kind) (hk : isVisible kind = true)
    (expected : String) : (expect kind expected (t :: ts)).Gives (some t) ts := by
  subst h
  rw [expect, look_bind, peek_cons hk, if_pos rfl]
  show next (t :: ts) = _
  rw [next, peek_cons hk, afterNext_cons hk]

theorem gives_name (h : t.kind = .identifier) (expected : String) :
    (name expected (t :: ts)).Gives (some ⟨t.position, t.lexeme⟩) ts :=
  gives_bind (g := fun t : Token => some (Ident.mk t.position t.lexeme)) (gives_expect h rfl _)
    fun _ => gives_pure _ _

/-- A parser that looks at the next token and passes it. -/
theorem gives_look {f : Token → Parser α} {o : Option α} {rest : List Token}
    (ht : isVisible t.kind = true) (h : (f t (t :: ts)).Gives o rest) :
    ((look >>= f) (t :: ts)).Gives o rest := by
  rwa [look_bind, peek_cons ht]

theorem gives_discard {f : Unit → Parser α} {o : Option α} {rest : List Token}
    (ht : isVisible t.kind = true) (h : (f () ts).Gives o rest) :
    ((discard afterNext >>= f) (t :: ts)).Gives o rest := by
  rwa [discard_bind, afterNext_cons ht]

end Tokens

/-! ## Items -/

section Items

variable {item : Parser α} {close : Kind} {ts : β → List Token} {value : β → Option α}
  {comma t : Token} {rest : List Token} {bs : List β}

/-- The tokens of items that follow a first one. -/
def moreTokens (comma : Token) (ts : β → List Token) (bs : List β) : List Token :=
  bs.flatMap fun b => comma :: ts b

/-- The tokens of items with commas between them. -/
def itemTokens (comma : Token) (ts : β → List Token) : List β → List Token
  | [] => []
  | b :: bs => ts b ++ moreTokens comma ts bs

theorem moreTokens_cons (comma : Token) (ts : β → List Token) (b : β) (bs : List β) :
    moreTokens comma ts (b :: bs) = comma :: (ts b ++ moreTokens comma ts bs) := rfl

theorem length_le_moreTokens (comma : Token) (ts : β → List Token) (bs : List β) :
    bs.length ≤ (moreTokens comma ts bs).length ∧
      ∀ b ∈ bs, (ts b).length ≤ (moreTokens comma ts bs).length := by
  induction bs with
  | nil => simp [moreTokens]
  | cons b bs ih =>
    simp only [moreTokens_cons, List.length_cons, List.length_append, List.forall_mem_cons]
    exact ⟨by omega, by omega, fun b' hb' => by have := ih.2 b' hb'; omega⟩

theorem length_le_itemTokens (comma : Token) (ts : β → List Token) (bs : List β) :
    bs.length ≤ (itemTokens comma ts bs).length + 1 ∧
      ∀ b ∈ bs, (ts b).length ≤ (itemTokens comma ts bs).length := by
  cases bs with
  | nil => simp [itemTokens]
  | cons b bs =>
    obtain ⟨hcount, heach⟩ := length_le_moreTokens comma ts bs
    simp only [itemTokens, List.length_cons, List.length_append, List.forall_mem_cons]
    exact ⟨by omega, by omega, fun b' hb' => by have := heach b' hb'; omega⟩

theorem exists_moreTokens_cons (ts : β → List Token) (bs : List β) (rest : List Token)
    (hcomma : comma.kind = .comma) (ht : t.kind = close) :
    ∃ t' rest', moreTokens comma ts bs ++ t :: rest = t' :: rest' ∧
      (t'.kind = .comma ∨ t'.kind = close) := by
  cases bs with
  | nil => exact ⟨t, rest, rfl, .inr ht⟩
  | cons b bs => exact ⟨comma, _, rfl, .inl hcomma⟩

variable (hcomma : comma.kind = .comma) (ht : t.kind = close) (hclose : close ≠ .comma)
  (hvisible : isVisible close = true)
  (h : ∀ b ∈ bs, ∀ {t rest}, t.kind = .comma ∨ t.kind = close →
    (item (ts b ++ t :: rest)).Gives (value b) (t :: rest))
include hcomma ht hclose hvisible h

/-- The rest of a list of items, up to the token that closes it. -/
theorem gives_moreItems {n : Nat} (hn : bs.length < n) :
    (moreItems item n (moreTokens comma ts bs ++ t :: rest)).Gives (bs.mapM value) (t :: rest) := by
  obtain ⟨n, rfl⟩ := Nat.exists_eq_add_one.2 (Nat.zero_lt_of_lt hn)
  induction bs generalizing n with
  | nil =>
    refine gives_look (ht ▸ hvisible) ?_
    rw [if_neg (ht ▸ hclose)]
    exact gives_pure _ _
  | cons b bs ih =>
    obtain ⟨hb, hbs⟩ := List.forall_mem_cons.1 h
    obtain ⟨n, rfl⟩ : ∃ m, n = m + 1 := ⟨n - 1, by simp at hn; omega⟩
    have hrest := ih hbs n (Nat.lt_of_succ_lt_succ hn)
    obtain ⟨t', rest', hcons, hkind⟩ := exists_moreTokens_cons ts bs rest hcomma ht
    rw [hcons] at hrest
    rw [moreTokens_cons, List.cons_append, List.append_assoc, hcons, List.mapM_cons]
    refine gives_look (by rw [hcomma]; rfl) ?_
    rw [if_pos hcomma]
    refine gives_discard (by rw [hcomma]; rfl) ?_
    exact gives_bind (hb hkind) fun _ => gives_bind hrest fun _ => gives_pure _ _

/-- A list of items up to the token that closes it, none of which starts with such a token. -/
theorem gives_itemsUntil
    (hfirst : ∀ b ∈ bs, ∃ t more, ts b = t :: more ∧ isVisible t.kind = true ∧ t.kind ≠ close)
    {n : Nat} (hn : bs.length ≤ n) (expected : String) :
    (itemsUntil n item close expected (itemTokens comma ts bs ++ t :: rest)).Gives (bs.mapM value)
      rest := by
  have hlist : ((look >>= fun t => if t.kind = close then pure [] else items n item)
      (itemTokens comma ts bs ++ t :: rest)).Gives (bs.mapM value) (t :: rest) := by
    cases bs with
    | nil =>
      refine gives_look (ht ▸ hvisible) ?_
      rw [if_pos ht]
      exact gives_pure _ _
    | cons b bs =>
      obtain ⟨hb, hbs⟩ := List.forall_mem_cons.1 h
      obtain ⟨first, more, hts, hfirst, hne⟩ := hfirst b List.mem_cons_self
      have hmore : (moreItems item n (moreTokens comma ts bs ++ t :: rest)).Gives (bs.mapM value)
          (t :: rest) := gives_moreItems hcomma ht hclose hvisible hbs hn
      obtain ⟨t', rest', hcons, hkind⟩ := exists_moreTokens_cons ts bs rest hcomma ht
      have hitems : (items n item (ts b ++ t' :: rest')).Gives ((b :: bs).mapM value)
          (t :: rest) := by
        rw [hcons] at hmore
        rw [List.mapM_cons]
        exact gives_bind (hb hkind) fun _ => gives_bind hmore fun _ => gives_pure _ _
      rw [itemTokens, List.append_assoc, hcons]
      rw [hts] at hitems ⊢
      refine gives_look hfirst ?_
      rwa [if_neg hne]
  have hdone := gives_bind (g := some) hlist fun list =>
    gives_bind (g := fun _ => some list) (gives_expect ht hvisible expected) fun _ =>
      gives_pure list rest
  rwa [Option.bind_fun_some] at hdone

end Items

/-! ## Primaries -/

section Expressions

variable {n : Nat} {expr : Parser Expr} {t : Token} {ts rest : List Token} {o : Option Expr}

theorem gives_leaf {e : Expr} (h : leaf? t = some e) :
    (primary n expr (t :: rest)).Gives (some e) rest := by
  have hleaf := h
  unfold leaf? at h
  split at h <;> cases h
  all_goals
    next hk =>
      refine gives_look (by rw [hk]; rfl) ?_
      simp only [hk, hleaf]
      exact gives_discard (by rw [hk]; rfl) (gives_pure _ _)

theorem gives_number {v : Numeral} (ht : t.kind = .number)
    (hv : Numeral.ofLiteral? t.lexeme.toList = some v) :
    (primary n expr (t :: rest)).Gives (some (.number t.position v)) rest := by
  have hvisible : isVisible t.kind = true := by rw [ht]; rfl
  refine gives_look hvisible ?_
  rw [ht]
  refine gives_discard hvisible ?_
  rw [numberLiteral, hv]
  exact gives_pure _ _

theorem gives_parens {close : Token} (ht : t.kind = .lparen) (hclose : close.kind = .rparen)
    (h : (expr ts).Gives o (close :: rest)) : (primary n expr (t :: ts)).Gives o rest := by
  have hvisible : isVisible t.kind = true := by rw [ht]; rfl
  refine gives_look hvisible ?_
  rw [ht]
  refine gives_discard hvisible ?_
  have hdone := gives_bind (g := some) h fun e =>
    gives_bind (g := fun _ => some e) (gives_expect hclose rfl "Expected ) after expression")
      fun _ => gives_pure e rest
  rwa [Option.bind_fun_some] at hdone

theorem gives_array {list : Option (List Expr)} (ht : t.kind = .lbracket)
    (h : (itemsUntil n expr .rbracket "Expected ] after array elements" ts).Gives list rest) :
    (primary n expr (t :: ts)).Gives (list.bind fun es => some (.array t.position es)) rest := by
  have hvisible : isVisible t.kind = true := by rw [ht]; rfl
  refine gives_look hvisible ?_
  rw [ht]
  exact gives_discard hvisible (gives_bind h fun _ => gives_pure _ _)

theorem gives_property {key colon : Token} (hkey : key.kind = .identifier)
    (hcolon : colon.kind = .colon) (h : (expr ts).Gives o rest) :
    (property expr (key :: colon :: ts)).Gives (o.bind fun value => some (key.lexeme, value))
      rest := by
  refine gives_bind (g := fun key => o.bind fun value => some (key.lexeme, value))
    (gives_expect hkey rfl _) fun key => ?_
  refine gives_bind (g := fun _ => o.bind fun value => some (key.lexeme, value))
    (gives_expect hcolon rfl _) fun _ => ?_
  exact gives_bind h fun _ => gives_pure _ _

theorem gives_object {list : Option (List (String × Expr))} (ht : t.kind = .lbrace)
    (h : (itemsUntil n (property expr) .rbrace r"Expected } after object properties" ts).Gives list
      rest) :
    (primary n expr (t :: ts)).Gives (list.bind fun ps => some (.object t.position ps)) rest := by
  have hvisible : isVisible t.kind = true := by rw [ht]; rfl
  refine gives_look hvisible ?_
  rw [ht]
  exact gives_discard hvisible (gives_bind h fun _ => gives_pure _ _)

theorem gives_shapeOrPrimary (hvisible : isVisible t.kind = true) (ht : ∀ s, t.kind ≠ .shape s)
    (h : (primary n expr (t :: ts)).Gives o rest) :
    (shapeOrPrimary n expr (t :: ts)).Gives o rest := by
  refine gives_look hvisible ?_
  cases hk : t.kind with
  | shape s => exact absurd hk (ht s)
  | _ => exact h

/-! ## Calls and accesses -/

/-- Whether a token goes on with the operand before it. -/
def continuesAccess : Kind → Bool
  | .lparen | .dot | .lbracket => true
  | _ => false

theorem gives_accesses_end (h : continuesAccess t.kind = false) (k : Nat) (e : Expr) :
    (accesses n expr (k + 1) e (t :: rest)).Gives (some e) (t :: rest) := by
  rw [accesses, lookHere_bind, List.headD_cons]
  cases hk : t.kind with
  | lparen | dot | lbracket =>
    rw [hk] at h
    cases h
  | _ => exact gives_pure _ _

theorem gives_call {k : Nat} {e : Expr} {args : Option (List Expr)} {more : Expr → Option Expr}
    {rest' : List Token} (ht : t.kind = .lparen)
    (h : (itemsUntil n expr .rparen "Expected ) after arguments" ts).Gives args rest)
    (hmore : ∀ e, (accesses n expr k e rest).Gives (more e) rest') :
    (accesses n expr (k + 1) e (t :: ts)).Gives (args.bind fun args => more (.call e args))
      rest' := by
  rw [accesses, lookHere_bind, List.headD_cons, ht]
  exact gives_discard (by rw [ht]; rfl) (gives_bind h fun _ => hmore _)

theorem gives_member {k : Nat} {e : Expr} {t' : Token} {more : Expr → Option Expr}
    {rest' : List Token} (ht : t.kind = .dot) (ht' : t'.kind = .identifier)
    (hmore : ∀ e, (accesses n expr k e rest).Gives (more e) rest') :
    (accesses n expr (k + 1) e (t :: t' :: rest)).Gives
      (more (.member e ⟨t'.position, t'.lexeme⟩)) rest' := by
  rw [accesses, lookHere_bind, List.headD_cons, ht]
  exact gives_discard (by rw [ht]; rfl) (gives_bind (gives_name ht' _) fun _ => hmore _)

theorem gives_index {k : Nat} {e : Expr} {close : Token} {more : Expr → Option Expr}
    {rest' : List Token} (ht : t.kind = .lbracket) (hclose : close.kind = .rbracket)
    (h : (expr ts).Gives o (close :: rest))
    (hmore : ∀ e, (accesses n expr k e rest).Gives (more e) rest') :
    (accesses n expr (k + 1) e (t :: ts)).Gives (o.bind fun key => more (.index e key)) rest' := by
  rw [accesses, lookHere_bind, List.headD_cons, ht]
  exact gives_discard (by rw [ht]; rfl) (gives_bind h fun _ =>
    gives_bind (gives_expect hclose rfl _) fun _ => hmore _)

/-! ## Operators -/

theorem gives_negations {operand : Parser Expr} {m : Nat} (hvisible : isVisible t.kind = true)
    (ht : t.kind ≠ .operator .sub) (h : (operand (t :: ts)).Gives o rest) :
    (negations operand (m + 1) (t :: ts)).Gives o rest := by
  refine gives_look hvisible ?_
  rwa [if_neg ht]

/-- Whether a token starts neither a negation nor a shape. -/
def startsPrimary : Kind → Bool
  | .newline | .eof | .operator .sub | .shape _ => false
  | _ => true

/-- A primary with what is read behind it. -/
theorem gives_unary {m : Nat} {k : Expr → Option Expr} {rest' : List Token}
    (ht : startsPrimary t.kind = true) (h : (primary n expr (t :: ts)).Gives o rest)
    (hk : ∀ e, (accesses n expr n e rest).Gives (k e) rest') :
    (negations (access n expr) (m + 1) (t :: ts)).Gives (o.bind k) rest' := by
  have hvisible : isVisible t.kind = true := by
    cases hkind : t.kind <;> simp_all [startsPrimary, isVisible]
  have hshape (s : ShapeKind) : t.kind ≠ .shape s := by
    intro hkind
    rw [hkind] at ht
    cases ht
  have hminus : t.kind ≠ .operator .sub := by
    intro hkind
    rw [hkind] at ht
    cases ht
  exact gives_negations hvisible hminus (gives_bind (gives_shapeOrPrimary hvisible hshape h) hk)

theorem gives_minus {operand : Parser Expr} {m : Nat} (ht : t.kind = .operator .sub)
    (h : (negations operand m ts).Gives o rest) :
    (negations operand (m + 1) (t :: ts)).Gives (o.map (.negate t.position)) rest := by
  have hvisible : isVisible t.kind = true := by rw [ht]; rfl
  refine gives_look hvisible ?_
  rw [if_pos ht, Option.map_eq_bind]
  exact gives_discard hvisible (gives_bind h fun _ => gives_pure _ _)

/-- Whether a token is an operator of a level. -/
def isOperatorOf (level : Level) : Kind → Bool
  | .operator op => op.level == level
  | _ => false

theorem gives_operations_end {level : Level} {operand : Parser Expr}
    (h : isOperatorOf level t.kind = false) (k : Nat) (e : Expr) :
    (operations level operand (k + 1) e (t :: rest)).Gives (some e) (t :: rest) := by
  rw [operations, lookHere_bind, List.headD_cons]
  cases hk : t.kind with
  | operator op =>
    rw [hk, isOperatorOf, beq_eq_false_iff_ne] at h
    simp only [if_neg h]
    exact gives_pure _ _
  | _ => exact gives_pure _ _

/-- An operand that no operator of the level follows. -/
theorem gives_joined {level : Level} {operand : Parser Expr} (h : (operand ts).Gives o (t :: rest))
    (ht : isOperatorOf level t.kind = false) :
    (joined (n + 1) level operand ts).Gives o (t :: rest) := by
  rw [← Option.bind_fun_some o]
  exact gives_bind h (gives_operations_end ht n)

/-- Two operands with an operator of the level between them. -/
theorem gives_joined_operator {level : Level} {operand : Parser Expr} {op : BinaryOp} {t' : Token}
    {ts' : List Token} {o' : Option Expr} (hop : t.kind = .operator op)
    (hlevel : op.level = level) (h : (operand ts).Gives o (t :: ts'))
    (h' : (operand ts').Gives o' (t' :: rest)) (ht' : isOperatorOf level t'.kind = false) :
    (joined (n + 2) level operand ts).Gives
      (o.bind fun l => o'.bind fun r => some (.binary t.position op l r)) (t' :: rest) := by
  refine gives_bind h fun l => ?_
  rw [operations, lookHere_bind, List.headD_cons]
  simp only [hop, if_pos hlevel]
  exact gives_discard (by rw [hop]; rfl) (gives_bind h' fun r => gives_operations_end ht' n _)

/-- Whether a token is an operator. -/
def isOperator : Kind → Bool
  | .operator _ => true
  | _ => false

theorem isOperatorOf_eq_false {kind : Kind} (h : isOperator kind = false) (level : Level) :
    isOperatorOf level kind = false := by
  cases kind with
  | operator op => cases h
  | _ => rfl

theorem gives_comparison
    (h : (negations (access (n + 1) expr) (n + 1) ts).Gives o (t :: rest))
    (ht : isOperator t.kind = false) : (comparison (n + 1) expr ts).Gives o (t :: rest) :=
  gives_joined (gives_joined (gives_joined h (isOperatorOf_eq_false ht _))
    (isOperatorOf_eq_false ht _)) (isOperatorOf_eq_false ht _)

theorem gives_operator {op : BinaryOp} {t' : Token} {ts' : List Token} {o' : Option Expr}
    (hop : t.kind = .operator op)
    (h : (negations (access (n + 2) expr) (n + 2) ts).Gives o (t :: ts'))
    (h' : (negations (access (n + 2) expr) (n + 2) ts').Gives o' (t' :: rest))
    (ht' : isOperator t'.kind = false) :
    (comparison (n + 2) expr ts).Gives
      (o.bind fun l => o'.bind fun r => some (.binary t.position op l r)) (t' :: rest) := by
  have hend (level : Level) : isOperatorOf level t'.kind = false := isOperatorOf_eq_false ht' level
  have hother {level : Level} (hne : op.level ≠ level) : isOperatorOf level t.kind = false := by
    rw [hop, isOperatorOf, beq_eq_false_iff_ne]
    exact hne
  -- below the level of the operator both operands are read, above it the whole
  cases hlevel : op.level with
  | multiplicative =>
    exact gives_joined (gives_joined (gives_joined_operator hop hlevel h h' (hend _)) (hend _))
      (hend _)
  | additive =>
    exact gives_joined (gives_joined_operator hop hlevel
      (gives_joined h (hother (by simp [hlevel]))) (gives_joined h' (hend _)) (hend _)) (hend _)
  | comparison =>
    exact gives_joined_operator hop hlevel
      (gives_joined (gives_joined h (hother (by simp [hlevel]))) (hother (by simp [hlevel])))
      (gives_joined (gives_joined h' (hend _)) (hend _)) (hend _)

theorem gives_assignment (h : (comparison n expr ts).Gives o (t :: rest)) (ht : t.kind ≠ .assign) :
    (assignment n expr ts).Gives o (t :: rest) := by
  rw [← Option.bind_fun_some o]
  refine gives_bind h fun e => ?_
  rw [lookHere_bind, List.headD_cons, if_neg ht]
  exact gives_pure _ _

theorem gives_assign {ts' : List Token} {o' : Option Expr}
    (h : (comparison n expr ts).Gives o (t :: ts')) (ht : t.kind = .assign)
    (h' : (expr ts').Gives o' rest) :
    (assignment n expr ts).Gives (o.bind fun target =>
      if target.isTarget then o'.bind fun value => some (.assign target value) else none) rest := by
  refine gives_bind h fun target => ?_
  rw [lookHere_bind, List.headD_cons, if_pos ht]
  refine gives_discard (by rw [ht]; rfl) ?_
  split_ifs
  · exact gives_bind h' fun _ => gives_pure _ _
  · exact ⟨_, rfl⟩

end Expressions

end Parser

end Easel
