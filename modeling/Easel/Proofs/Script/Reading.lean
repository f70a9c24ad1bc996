import Easel.Proofs.Script.Reread

/-!
# Reading the script of an expression

A parser that reads the tokens of an expression's script finds the expression that the script says,
as an operand and as a whole (`reads_of_writable`).
-/

namespace Easel

open Token (Kind Lexeme textOf)
open Layout (space)
open Easel.Parser

/-! ## The tokens of a script -/

/-- The tokens of lexemes at no place. -/
def bareTokens (ls : List Lexeme) : List Token :=
  ls.filterMap fun l => l.kind.map fun kind => ⟨kind, String.ofList l.text, {}, 0⟩

theorem bareTokens_append (ls ls' : List Lexeme) :
    bareTokens (ls ++ ls') = bareTokens ls ++ bareTokens ls' := List.filterMap_append

theorem bareTokens_sign (c : Char) (ls : List Lexeme) :
    bareTokens (sign c :: ls) = mark c :: bareTokens ls := rfl

theorem bareTokens_op (op : BinaryOp) (ls : List Lexeme) :
    bareTokens (opLexeme op :: ls) = opToken op :: bareTokens ls := rfl

theorem bareTokens_name (name : String) : bareTokens [nameLexeme name] = [nameToken name] := by
  simp [bareTokens, nameLexeme, nameToken]

theorem bareTokens_space (ls : List Lexeme) : bareTokens (space :: ls) = bareTokens ls := rfl

theorem bareTokens_commaJoined {β : Type} (g : β → List Lexeme) (bs : List β) :
    bareTokens (commaJoined (bs.map g)) = itemTokens (mark ',') (fun b => bareTokens (g b)) bs := by
  induction bs with
  | nil => rfl
  | cons b bs ih =>
    cases bs with
    | nil => simp [commaJoined, itemTokens, moreTokens]
    | cons b' bs =>
      rw [List.map_cons, List.map_cons, commaJoined, bareTokens_append, bareTokens_sign,
        bareTokens_space, ← List.map_cons, ih]
      · rfl
      · simp

namespace Expr

/-- The tokens of the script of an expression. -/
def tokens (nested : Bool) (e : Expr) : List Token := bareTokens (e.pieces nested)

theorem tokens_array (nested : Bool) (p : Position) (es : List Expr) :
    (array p es).tokens nested =
      mark '[' :: (itemTokens (mark ',') (tokens true) es ++ [mark ']']) := by
  rw [tokens, pieces, bareTokens_sign, bareTokens_append, piecesOf_eq_map, bareTokens_commaJoined]
  rfl

theorem tokens_negate (nested : Bool) (p : Position) (a : Expr) :
    (negate p a).tokens nested =
      if a.isNegation then mark '-' :: mark '(' :: (a.tokens true ++ [mark ')'])
      else mark '-' :: a.tokens true := by
  rw [tokens, pieces]
  split_ifs
  · rw [bareTokens_sign, bareTokens_sign, bareTokens_append]
    rfl
  · rfl

theorem tokens_binary (nested : Bool) (p : Position) (op : BinaryOp) (l r : Expr) :
    (binary p op l r).tokens nested =
      mark '(' :: ((l.tokens true ++ opToken op :: r.tokens true) ++ [mark ')']) := by
  simp only [tokens, pieces, bareTokens_sign, bareTokens_append, bareTokens_space, bareTokens_op,
    List.append_assoc, List.cons_append]
  rfl

theorem tokens_assign (t v : Expr) :
    (assign t v).tokens false = t.tokens true ++ mark '=' :: v.tokens false :=
  bareTokens_append _ _

theorem tokens_nested_assign (t v : Expr) :
    (assign t v).tokens true = mark '(' :: ((assign t v).tokens false ++ [mark ')']) :=
  congrArg (mark '(' :: ·) (bareTokens_append _ _)

theorem tokens_call (nested : Bool) (c : Expr) (args : List Expr) :
    (call c args).tokens nested =
      c.tokens true ++ mark '(' :: (itemTokens (mark ',') (tokens true) args ++ [mark ')']) := by
  rw [tokens, pieces, bareTokens_append, bareTokens_sign, bareTokens_append, piecesOf_eq_map,
    bareTokens_commaJoined]
  rfl

theorem tokens_member (nested : Bool) (b : Expr) (q : Ident) :
    (member b q).tokens nested = b.tokens true ++ [mark '.', nameToken q.name] := by
  rw [tokens, pieces, bareTokens_append, bareTokens_sign, bareTokens_name]
  rfl

theorem tokens_index (nested : Bool) (b key : Expr) :
    (index b key).tokens nested = b.tokens true ++ mark '[' :: (key.tokens true ++ [mark ']']) := by
  rw [tokens, pieces, bareTokens_append, bareTokens_sign, bareTokens_append]
  rfl

/-- The first token of a script. -/
theorem exists_tokens_cons {e : Expr} (h : e.Writable) (nested : Bool) :
    ∃ t rest, e.tokens nested = t :: rest ∧ startsExpr t.kind = true := by
  obtain ⟨kind, text, rest, heq, hkind⟩ := begins_pieces h nested
  rw [tokens, heq]
  exact ⟨_, _, rfl, hkind⟩

end Expr

/-! ## What is read -/

/-- A string literal stands for its value. -/
theorem leaf?_literalOf {s : String} (h : IsStringValue s) :
    leaf? ⟨.string, String.ofList (literalOf s), {}, 0⟩ = some (.string {} s) := by
  have hlexeme : (⟨.string, String.ofList (literalOf s), {}, 0⟩ : Token).lexeme = s := by
    simp only [Token.lexeme, String.toList_ofList, literalOf, List.drop_one, List.tail_cons,
      List.dropLast_concat, h.unescape_eq, String.ofList_toList]
  rw [leaf?]
  simp only [hlexeme]

/-- The script is read as what it says, as an operand and as a whole. -/
def Expr.ReadsBack (e : Expr) : Prop :=
  AsOperand (e.tokens true) e.rereadWith ∧ AsWhole (e.tokens false) e.reread

variable {e : Expr}

theorem Expr.ReadsBack.of_operand (h : AsOperand (e.tokens true) e.rereadWith)
    (heq : e.tokens false = e.tokens true) : e.ReadsBack :=
  ⟨h, heq ▸ h.whole⟩

theorem readsBack_negate {a : Expr} (h : AsOperand (a.tokens true) a.rereadWith) :
    (Expr.negate {} a).ReadsBack := by
  refine .of_operand ?_ rfl
  rw [Expr.tokens_negate]
  split_ifs with hneg
  · exact (asOperand_minus (asOperand_parens h.whole)).congr fun k => by
      rw [Expr.rereadWith, if_pos hneg]
  · exact (asOperand_minus h).congr fun k => by rw [Expr.rereadWith, if_neg hneg]

theorem readsBack_binary {op : BinaryOp} {l r : Expr} (hl : l.ReadsBack) (hr : r.ReadsBack) :
    (Expr.binary {} op l r).ReadsBack := by
  refine .of_operand ?_ rfl
  rw [Expr.tokens_binary]
  refine (asOperand_parens (asWhole_binary op hl.1 hr.1)).congr fun k => ?_
  simp only [Expr.rereadWith, Option.bind_assoc, Option.bind_some]

theorem readsBack_assign {target value : Expr} (ht : target.ReadsBack) (hv : value.ReadsBack) :
    (Expr.assign target value).ReadsBack := by
  have hwhole := asWhole_assign ht.1 hv.2
  rw [← Expr.tokens_assign] at hwhole
  refine ⟨?_, hwhole⟩
  rw [Expr.tokens_nested_assign]
  refine (asOperand_parens hwhole).congr fun k => ?_
  rw [Expr.rereadWith, Option.bind_assoc]
  refine Option.bind_congr fun target' _ => ?_
  split_ifs
  · rw [Option.bind_assoc]
    rfl
  · rfl

/-- Every script is read as the expression it says, as an operand and as a whole. -/
theorem reads_of_writable (h : e.Writable) : e.ReadsBack := by
  have each {es : List Expr} (hes : ∀ e ∈ es, e.ReadsBack) :
      ∀ e ∈ es, AsWhole (e.tokens true) e.reread := fun e he => (hes e he).1.whole
  have starts {es : List Expr} (hes : ∀ e ∈ es, e.Writable) :
      ∀ e ∈ es, ∃ t rest, e.tokens true = t :: rest ∧ startsExpr t.kind = true :=
    fun e he => Expr.exists_tokens_cons (hes e he) true
  induction h with
  | @ident name _ =>
    refine .of_operand ?_ rfl
    rw [Expr.tokens, Expr.pieces, bareTokens_name]
    exact asOperand_leaf rfl rfl
  | @number v h =>
    have heq : (Expr.number {} v).tokens true = [⟨.number, v.text, {}, 0⟩] := by
      simp [Expr.tokens, Expr.pieces, bareTokens]
    exact .of_operand (heq ▸ asOperand_number h.2) rfl
  | string h => exact .of_operand (asOperand_leaf rfl (leaf?_literalOf h)) rfl
  | bool b => cases b <;> exact .of_operand (asOperand_leaf rfl rfl) rfl
  | null => exact .of_operand (asOperand_leaf rfl rfl) rfl
  | array hw ih =>
    refine .of_operand ?_ rfl
    rw [Expr.tokens_array]
    refine (asOperand_array (each ih) (starts hw)).congr fun k => ?_
    rw [Expr.rereadWith, Expr.rereadAll_eq_mapM]
  | negate _ ih => exact readsBack_negate ih.1
  | binary op _ _ ihl ihr => exact readsBack_binary ihl ihr
  | assign _ _ _ iht ihv => exact readsBack_assign iht ihv
  | call _ hargs ihc ihargs =>
    refine .of_operand ?_ rfl
    rw [Expr.tokens_call]
    refine (asOperand_call (each ihargs) (starts hargs) ihc.1).congr fun k => ?_
    rw [Expr.rereadWith, Expr.rereadAll_eq_mapM]
  | member _ _ ih =>
    refine .of_operand ?_ rfl
    rw [Expr.tokens_member]
    exact asOperand_member ih.1 _
  | index _ _ ihb ihk =>
    refine .of_operand ?_ rfl
    rw [Expr.tokens_index]
    exact asOperand_index ihb.1 ihk.1.whole

end Easel
