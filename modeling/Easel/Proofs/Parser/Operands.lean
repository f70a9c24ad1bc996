import Easel.Numeral.Layout
import Easel.Proofs.Parser.Gives
import Easel.Token.Lexer

/-!
# Tokens that are read as expressions

As an operand, the tokens of an expression are read together with the calls and accesses behind them
(`AsOperand`); as a whole, they are read up to a token that closes an expression (`AsWhole`).  Each
construct has a rule that says what its tokens are read as, in terms of the tokens of its parts.
-/

namespace Easel

open Token (Kind)
open Easel.Parser

/-- The token of a character that is one by itself. -/
def mark (c : Char) : Token := ⟨Token.punctuation c, String.ofList [c], {}, 0⟩

/-- The token of an operator. -/
def opToken (op : BinaryOp) : Token := ⟨.operator op, String.ofList op.spelling.toList, {}, 0⟩

/-- The token of a name. -/
def nameToken (name : String) : Token := ⟨.identifier, name, {}, 0⟩

/-- The kinds of token that the text of an expression starts with. -/
def startsExpr : Kind → Bool
  | .identifier | .number | .string | .color | .lparen | .lbracket | .lbrace | .operator .sub
  | .keyword .trueKw | .keyword .falseKw | .keyword .nullKw => true
  | _ => false

theorem startsExpr_spec {kind : Kind} (h : startsExpr kind = true) :
    isVisible kind = true ∧ kind ≠ .rparen ∧ kind ≠ .rbracket := by
  cases kind <;> simp_all [startsExpr, isVisible]

/-- Whether an expression ends at a token that comes next. -/
def closesExpr : Kind → Bool
  | .rparen | .rbracket | .rbrace | .comma | .semicolon | .newline | .eof => true
  | _ => false

theorem closesExpr_spec {kind : Kind} (h : closesExpr kind = true) :
    continuesAccess kind = false ∧ isOperator kind = false ∧ kind ≠ .assign := by
  cases kind <;> simp_all [closesExpr, continuesAccess, isOperator]

namespace Parser

/-- As an operand, the tokens are read with what stands behind them, of which `k` makes up to `b`
calls and accesses. -/
def AsOperand (ts : List Token) (read : (Expr → Option Expr) → Option Expr) : Prop :=
  ∀ ⦃n m b : Nat⦄ ⦃k : Expr → Option Expr⦄ ⦃rest rest' : List Token⦄,
    ts.length + b < n → ts.length ≤ m →
    (∀ e j, b < j → (accesses n (expressionWithin n) j e rest).Gives (k e) rest') →
    (negations (access n (expressionWithin n)) m (ts ++ rest)).Gives (read k) rest'

/-- The tokens are read as a whole, up to a token that closes them. -/
def AsWhole (ts : List Token) (o : Option Expr) : Prop :=
  ∀ ⦃n : Nat⦄ ⦃t : Token⦄ ⦃rest : List Token⦄, ts.length + 1 < n → closesExpr t.kind = true →
    (expressionWithin n (ts ++ t :: rest)).Gives o (t :: rest)

variable {ts ts' : List Token} {t : Token} {o o' : Option Expr}
  {read read' : (Expr → Option Expr) → Option Expr}

theorem AsOperand.congr (h : AsOperand ts read) (heq : ∀ k, read k = read' k) :
    AsOperand ts read' := by
  rwa [← funext heq]

theorem AsOperand.before (h : AsOperand ts read) {n : Nat} {rest : List Token} (hn : ts.length < n)
    (ht : continuesAccess t.kind = false) :
    (negations (access n (expressionWithin n)) n (ts ++ t :: rest)).Gives (read some)
      (t :: rest) := by
  refine h (b := 0) hn hn.le fun e j hj => ?_
  obtain ⟨j, rfl⟩ := Nat.exists_eq_add_one.2 hj
  exact gives_accesses_end ht j e

theorem AsOperand.whole (h : AsOperand ts read) : AsWhole ts (read some) := by
  intro n t rest hn ht
  obtain ⟨haccess, hoperator, hassign⟩ := closesExpr_spec ht
  obtain ⟨n, rfl⟩ : ∃ m, n = m + 2 := ⟨n - 2, by omega⟩
  exact gives_assignment (gives_comparison (h.before (by omega) haccess) hoperator) hassign

/-! ## Primaries -/

theorem asOperand_of_primary (ht : startsPrimary t.kind = true)
    (h : ∀ (n : Nat) (rest : List Token), (t :: ts).length < n →
      (primary n (expressionWithin n) (t :: (ts ++ rest))).Gives o rest) :
    AsOperand (t :: ts) o.bind := by
  intro n m b k rest rest' hn hm hk
  obtain ⟨m, rfl⟩ := Nat.exists_eq_add_one.2 (Nat.zero_lt_of_lt hm)
  exact gives_unary ht (h n rest (by omega)) fun e => hk e n (by omega)

theorem asOperand_leaf {e : Expr} (ht : startsPrimary t.kind = true) (h : leaf? t = some e) :
    AsOperand [t] (· e) :=
  asOperand_of_primary (o := some e) ht fun _ _ _ => gives_leaf h

theorem asOperand_number {v : Numeral} (h : Numeral.ofLiteral? v.text.toList = some v) :
    AsOperand [⟨.number, v.text, {}, 0⟩] (· (.number {} v)) :=
  asOperand_of_primary (o := some (.number {} v)) rfl fun _ _ _ => gives_number rfl h

theorem asOperand_parens (h : AsWhole ts o) :
    AsOperand (mark '(' :: (ts ++ [mark ')'])) o.bind := by
  refine asOperand_of_primary rfl fun n rest hn => ?_
  simp only [List.length_cons, List.length_append] at hn
  rw [List.append_assoc]
  exact gives_parens rfl (by rfl) (h (by omega) rfl)

/-! ## Lists of expressions -/

section Items

variable {β : Type} {bs : List β} {items : β → List Token} {value : β → Option Expr}
  (h : ∀ b ∈ bs, AsWhole (items b) (value b))
  (hstart : ∀ b ∈ bs, ∃ t more, items b = t :: more ∧ startsExpr t.kind = true)
include h hstart

theorem gives_expressions {n : Nat} (hn : (itemTokens (mark ',') items bs).length + 1 < n)
    {close : Kind} (ht : t.kind = close) (hclose : close = .rparen ∨ close = .rbracket) (expected : String)
    (rest : List Token) :
    (itemsUntil n (expressionWithin n) close expected
      (itemTokens (mark ',') items bs ++ t :: rest)).Gives (bs.mapM value) rest := by
  obtain ⟨hcount, heach⟩ := length_le_itemTokens (mark ',') items bs
  have hcloses {kind : Kind} (hkind : kind = .comma ∨ kind = close) : closesExpr kind = true := by
    rcases hkind with rfl | rfl
    · rfl
    · rcases hclose with rfl | rfl <;> rfl
  refine gives_itemsUntil rfl ht ?_ ?_ ?_ ?_ (by omega) expected
  · rcases hclose with rfl | rfl <;> decide
  · rcases hclose with rfl | rfl <;> rfl
  · intro b hb t rest hkind
    exact h b hb (by have := heach b hb; omega) (hcloses hkind)
  · intro b hb
    obtain ⟨t, more, heq, hfirst⟩ := hstart b hb
    obtain ⟨hvisible, hparen, hbracket⟩ := startsExpr_spec hfirst
    refine ⟨t, more, heq, hvisible, ?_⟩
    rcases hclose with rfl | rfl
    · exact hparen
    · exact hbracket

theorem asOperand_array :
    AsOperand (mark '[' :: (itemTokens (mark ',') items bs ++ [mark ']']))
      fun k => (bs.mapM value).bind fun es => k (.array {} es) := by
  refine (asOperand_of_primary (o := (bs.mapM value).bind fun es => some (.array {} es)) rfl
    fun n rest hn => ?_).congr fun k => Option.bind_assoc _ _ _
  simp only [List.length_cons, List.length_append] at hn
  rw [List.append_assoc]
  exact gives_array rfl (gives_expressions h hstart (by omega) rfl (.inr rfl) _ rest)

theorem asOperand_call (hts : AsOperand ts read) :
    AsOperand (ts ++ mark '(' :: (itemTokens (mark ',') items bs ++ [mark ')']))
      fun k => read fun c => (bs.mapM value).bind fun args => k (.call c args) := by
  intro n m b k rest rest' hn hm hk
  simp only [List.length_cons, List.length_append, List.length_nil] at hn hm
  rw [List.append_assoc, List.cons_append, List.append_assoc]
  refine hts (b := b + 1) (by omega) (by omega) fun e j hj => ?_
  obtain ⟨j, rfl⟩ : ∃ i, j = i + 1 := ⟨j - 1, by omega⟩
  exact gives_call rfl (gives_expressions h hstart (by omega) rfl (.inl rfl) _ rest)
    fun e => hk e j (by omega)

end Items

/-! ## Accesses -/

theorem asOperand_member (h : AsOperand ts read) (name : String) :
    AsOperand (ts ++ [mark '.', nameToken name])
      fun k => read fun e => k (.member e ⟨{}, name⟩) := by
  intro n m b k rest rest' hn hm hk
  simp only [List.length_cons, List.length_append, List.length_nil] at hn hm
  rw [List.append_assoc]
  refine h (b := b + 1) (by omega) (by omega) fun e j hj => ?_
  obtain ⟨j, rfl⟩ : ∃ i, j = i + 1 := ⟨j - 1, by omega⟩
  exact gives_member (by rfl) (by rfl) fun e => hk e j (by omega)

theorem asOperand_index (h : AsOperand ts read) (hkey : AsWhole ts' o) :
    AsOperand (ts ++ mark '[' :: (ts' ++ [mark ']']))
      fun k => read fun e => o.bind fun key => k (.index e key) := by
  intro n m b k rest rest' hn hm hk
  simp only [List.length_cons, List.length_append, List.length_nil] at hn hm
  rw [List.append_assoc, List.cons_append, List.append_assoc]
  refine h (b := b + 1) (by omega) (by omega) fun e j hj => ?_
  obtain ⟨j, rfl⟩ : ∃ i, j = i + 1 := ⟨j - 1, by omega⟩
  exact gives_index rfl (by rfl) (hkey (by omega) rfl) fun e => hk e j (by omega)

/-! ## Operators -/

theorem asOperand_minus (h : AsOperand ts read) :
    AsOperand (mark '-' :: ts) fun k => (read k).map (.negate {}) := by
  intro n m b k rest rest' hn hm hk
  rw [List.length_cons] at hn hm
  obtain ⟨m, rfl⟩ : ∃ j, m = j + 1 := ⟨m - 1, by omega⟩
  exact gives_minus rfl (h (by omega) (by omega) hk)

theorem asWhole_binary (op : BinaryOp) (h : AsOperand ts read) (h' : AsOperand ts' read') :
    AsWhole (ts ++ opToken op :: ts')
      ((read some).bind fun l => (read' some).bind fun r => some (.binary {} op l r)) := by
  intro n t rest hn ht
  obtain ⟨haccess, hoperator, hassign⟩ := closesExpr_spec ht
  simp only [List.length_cons, List.length_append] at hn
  obtain ⟨n, rfl⟩ : ∃ m, n = m + 3 := ⟨n - 3, by omega⟩
  rw [List.append_assoc, List.cons_append]
  exact gives_assignment (gives_operator rfl (h.before (by omega) rfl)
    (h'.before (by omega) haccess) hoperator) hassign

theorem asWhole_assign (h : AsOperand ts read) (h' : AsWhole ts' o) :
    AsWhole (ts ++ mark '=' :: ts') ((read some).bind fun target =>
      if target.isTarget then o.bind fun value => some (.assign target value) else none) := by
  intro n t rest hn ht
  simp only [List.length_cons, List.length_append] at hn
  obtain ⟨n, rfl⟩ : ∃ m, n = m + 2 := ⟨n - 2, by omega⟩
  rw [List.append_assoc, List.cons_append]
  exact gives_assign (gives_comparison (h.before (by omega) rfl) rfl) rfl (h' (by omega) ht)

end Parser

end Easel
