import Easel.Proofs.Layout.Glue
import Easel.Proofs.Parser.Operands
import Easel.Proofs.Parser.Yield
import Easel.Proofs.Script.Relocate

/-!
# The lexemes of an expression's script

The script of an expression without shapes, colors and objects is a line of lexemes of the language
itself.  `Expr.pieces` gives them: they have the text of the script (`flat_script`) and a scanner
finds them in it (`readable_pieces`).

Positions do not change a script, so all this is said of expressions without positions
(`Expr.Writable`): every expression that a parser yields becomes one (`writable_relocate`).
-/

namespace Easel

open Token (Found Kind Lexeme Readable Stops textOf)
open Layout (space)

/-! ## Expressions that scripts can hold as they are -/

/-- The number is written as one literal that denotes it. -/
def Numeral.ReadsBack (v : Numeral) : Prop :=
  Token.lexemes v.text.toList = [⟨some .number, v.text.toList⟩] ∧
    Numeral.ofLiteral? v.text.toList = some v

/-- An expression without shapes, colors and objects, whose numbers read back. -/
inductive Expr.Plain : Expr → Prop
  | ident (id : Ident) : Plain (.ident id)
  | number (p : Position) {v : Numeral} (h : v.ReadsBack) : Plain (.number p v)
  | string (p : Position) (s : String) : Plain (.string p s)
  | bool (p : Position) (b : Bool) : Plain (.bool p b)
  | null (p : Position) : Plain (.null p)
  | array (p : Position) {es : List Expr} (h : ∀ e ∈ es, Plain e) : Plain (.array p es)
  | negate (p : Position) {e : Expr} (h : Plain e) : Plain (.negate p e)
  | binary (p : Position) (op : BinaryOp) {l r : Expr} (hl : Plain l) (hr : Plain r) :
      Plain (.binary p op l r)
  | assign {target value : Expr} (ht : Plain target) (hv : Plain value) :
      Plain (.assign target value)
  | call {callee : Expr} {args : List Expr} (hc : Plain callee) (hargs : ∀ a ∈ args, Plain a) :
      Plain (.call callee args)
  | member {base : Expr} (hb : Plain base) (property : Ident) : Plain (.member base property)
  | index {base key : Expr} (hb : Plain base) (hk : Plain key) : Plain (.index base key)

/-- A plain and wellformed expression without positions. -/
inductive Expr.Writable : Expr → Prop
  | ident {name : String} (h : IsName name) : Writable (.ident ⟨{}, name⟩)
  | number {v : Numeral} (h : v.ReadsBack) : Writable (.number {} v)
  | string {s : String} (h : IsStringValue s) : Writable (.string {} s)
  | bool (b : Bool) : Writable (.bool {} b)
  | null : Writable (.null {})
  | array {es : List Expr} (h : ∀ e ∈ es, Writable e) : Writable (.array {} es)
  | negate {e : Expr} (h : Writable e) : Writable (.negate {} e)
  | binary (op : BinaryOp) {l r : Expr} (hl : Writable l) (hr : Writable r) :
      Writable (.binary {} op l r)
  | assign {target value : Expr} (htarget : target.isTarget = true) (ht : Writable target)
      (hv : Writable value) : Writable (.assign target value)
  | call {callee : Expr} {args : List Expr} (hc : Writable callee)
      (hargs : ∀ a ∈ args, Writable a) : Writable (.call callee args)
  | member {base : Expr} {name : String} (hb : Writable base) (hn : IsName name) :
      Writable (.member base ⟨{}, name⟩)
  | index {base key : Expr} (hb : Writable base) (hk : Writable key) : Writable (.index base key)

theorem Expr.writable_relocateAll {es : List Expr}
    (h : ∀ e ∈ es, (e.relocate fun _ => {}).Writable) :
    ∀ e ∈ Expr.relocateAll (fun _ => {}) es, e.Writable := by
  intro e he
  rw [Expr.relocateAll_eq_map] at he
  obtain ⟨a, ha, rfl⟩ := List.mem_map.1 he
  exact h a ha

/-- Plain expressions that are wellformed can be written, once their positions are dropped. -/
theorem Expr.writable_relocate {e : Expr} (h : e.Plain) (hw : e.Wellformed) :
    (e.relocate fun _ => {}).Writable := by
  induction h with
  | ident id =>
    cases hw with
    | ident hname => exact .ident hname
  | number p h => exact .number h
  | string p s =>
    cases hw with
    | string _ hs => exact .string hs
  | bool p b => exact .bool b
  | null p => exact .null
  | array p _ ih =>
    cases hw with
    | array _ hes => exact .array (writable_relocateAll fun e he => ih e he (hes e he))
  | negate p _ ih =>
    cases hw with
    | negate _ he => exact .negate (ih he)
  | binary p op _ _ ihl ihr =>
    cases hw with
    | binary _ _ hl hr => exact .binary op (ihl hl) (ihr hr)
  | assign _ _ iht ihv =>
    cases hw with
    | assign htarget ht hv =>
      exact .assign ((Expr.isTarget_relocate _ _).trans htarget) (iht ht) (ihv hv)
  | call _ _ ihc ihargs =>
    cases hw with
    | call hc hargs =>
      exact .call (ihc hc) (writable_relocateAll fun a ha => ihargs a ha (hargs a ha))
  | member _ property ih =>
    cases hw with
    | member hb hn => exact .member (ih hb) hn
  | index _ _ ihb ihk =>
    cases hw with
    | index hb hk => exact .index (ihb hb) (ihk hk)

/-! ## Lexemes -/

/-- The lexeme of a character that is a token by itself. -/
def sign (c : Char) : Lexeme := ⟨some (Token.punctuation c), [c]⟩

/-- The lexeme of a name. -/
def nameLexeme (name : String) : Lexeme := ⟨some .identifier, name.toList⟩

/-- The lexeme of an operator. -/
def opLexeme (op : BinaryOp) : Lexeme := ⟨some (.operator op), op.spelling.toList⟩

/-- The lexeme of a keyword. -/
def keywordLexeme (word : Keyword) : Lexeme := ⟨some (.keyword word), word.spelling.toList⟩

/-- Lexemes with a comma between each part and the next. -/
def commaJoined : List (List Lexeme) → List Lexeme
  | [] => []
  | [ls] => ls
  | ls :: rest => ls ++ sign ',' :: space :: commaJoined rest

mutual

/-- The lexemes of the script of an expression, where no name is captured. -/
def Expr.pieces (nested : Bool) : Expr → List Lexeme
  | .ident id => [nameLexeme id.name]
  | .number _ value => [⟨some .number, value.text.toList⟩]
  | .string _ value => [⟨some .string, literalOf value⟩]
  | .bool _ value => [keywordLexeme (if value then .trueKw else .falseKw)]
  | .null _ => [keywordLexeme .nullKw]
  | .array _ elements => sign '[' :: (commaJoined (Expr.piecesOf elements) ++ [sign ']'])
  | .negate _ operand =>
    if operand.isNegation then sign '-' :: sign '(' :: (operand.pieces true ++ [sign ')'])
    else sign '-' :: operand.pieces true
  | .binary _ op left right =>
    sign '(' ::
      (left.pieces true ++ space :: opLexeme op :: space :: right.pieces true ++ [sign ')'])
  | .assign target value =>
    let ls := target.pieces true ++ space :: sign '=' :: space :: value.pieces false
    if nested then sign '(' :: (ls ++ [sign ')']) else ls
  | .call callee args =>
    callee.pieces true ++ sign '(' :: (commaJoined (Expr.piecesOf args) ++ [sign ')'])
  | .member base property => base.pieces true ++ [sign '.', nameLexeme property.name]
  | .index base key => base.pieces true ++ sign '[' :: (key.pieces true ++ [sign ']'])
  | .color _ _ | .object _ _ | .shape _ _ => []

/-- The lexemes of each of several expressions. -/
def Expr.piecesOf : List Expr → List (List Lexeme)
  | [] => []
  | e :: rest => e.pieces true :: Expr.piecesOf rest

end

theorem Expr.piecesOf_eq_map (es : List Expr) : Expr.piecesOf es = es.map (Expr.pieces true) := by
  induction es with
  | nil => rfl
  | cons e es ih => rw [Expr.piecesOf, ih, List.map_cons]

/-! ## The text of a script on one line -/

namespace Script

/-- The items write the characters `cs`, all on one line and without indentation. -/
structure Flat (s : Script) (cs : List Char) : Prop where
  onLine : ∀ i ∈ s, i.endsLine = false ∧ i.indent = 0
  text_eq : s.flatMap (fun i => i.content.text.toList) = cs

theorem flat_nil : Flat [] [] := ⟨List.forall_mem_nil _, rfl⟩

theorem flat_code (text : String) : Flat (code text) text.toList :=
  ⟨by simp [code, Item.endsLine], by simp [code, Content.text]⟩

theorem flat_use (name spelling : String) : Flat (use name spelling) spelling.toList :=
  ⟨by simp [use, Item.endsLine], by simp [use, Content.text]⟩

theorem Flat.of_eq {s : Script} {cs ds : List Char} (h : Flat s cs) (heq : ds = cs) : Flat s ds :=
  heq ▸ h

theorem Flat.append {s t : Script} {cs ds : List Char} (hs : Flat s cs) (ht : Flat t ds) :
    Flat (s ++ t) (cs ++ ds) :=
  ⟨List.forall_mem_append.2 ⟨hs.onLine, ht.onLine⟩,
    by rw [List.flatMap_append, hs.text_eq, ht.text_eq]⟩

theorem Flat.between {s : Script} {cs : List Char} (h : Flat s cs) (opening closing : String) :
    Flat (between opening closing s) (opening.toList ++ cs ++ closing.toList) :=
  ((flat_code opening).append h).append (flat_code closing)

theorem flat_commaSeparated {es : List Expr} {f : Expr → Script} {g : Expr → List Lexeme}
    (h : ∀ e ∈ es, Flat (f e) (textOf (g e))) :
    Flat (commaSeparated (es.map f)) (textOf (commaJoined (es.map g))) := by
  induction es with
  | nil => exact flat_nil
  | cons e es ih =>
    obtain ⟨he, hes⟩ := List.forall_mem_cons.1 h
    cases es with
    | nil => exact he
    | cons e' es =>
      have htext : textOf (commaJoined ((e :: e' :: es).map g)) =
          textOf (g e) ++ ", ".toList ++ textOf (commaJoined ((e' :: es).map g)) := by
        simp [commaJoined, sign, space]
      rw [htext]
      exact (he.append (flat_code ", ")).append (ih hes)

theorem writeOn_getD {i : Item} (hi : i.indent = 0) {current : Option Line}
    (hc : (current.getD {}).indent = 0) :
    ((i.writeOn current).getD {}).indent = 0 ∧ ((i.writeOn current).getD {}).text =
      (current.getD {}).text ++ i.content.text := by
  unfold Item.writeOn
  split_ifs with hempty
  · rw [String.isEmpty_iff.1 hempty]
    exact ⟨hc, String.append_empty.symm⟩
  · cases current with
    | none => exact ⟨hi, String.empty_append.symm⟩
    | some l => exact ⟨hc, rfl⟩

/-- Items that end no line, and a line end, give one line. -/
theorem linesFrom_lineEnd {s : Script} (h : ∀ i ∈ s, i.endsLine = false ∧ i.indent = 0)
    (current : Option Line) (hc : (current.getD {}).indent = 0) :
    ∃ l, linesFrom current (s ++ lineEnd) = [l] ∧ l.indent = 0 ∧
      l.text.toList = (current.getD {}).text.toList ++
        s.flatMap fun i => i.content.text.toList := by
  induction s generalizing current with
  | nil => exact ⟨current.getD {}, rfl, hc, (List.append_nil _).symm⟩
  | cons i s ih =>
    obtain ⟨⟨hends, hindent⟩, hs⟩ := List.forall_mem_cons.1 h
    obtain ⟨hc', htext⟩ := writeOn_getD hindent hc
    obtain ⟨l, hlines, hl, hltext⟩ := ih hs _ hc'
    refine ⟨l, ?_, hl, ?_⟩
    · rw [List.cons_append, linesFrom, if_neg (by simp [hends]), hlines]
    · rw [hltext, htext, String.toList_append, List.append_assoc, List.flatMap_cons]

theorem Flat.print_line {s : Script} {cs : List Char} (h : Flat s cs) :
    (print (s ++ lineEnd)).toList = cs ++ ['\n'] := by
  obtain ⟨l, hlines, hindent, htext⟩ := linesFrom_lineEnd h.onLine none rfl
  rw [h.text_eq] at htext
  rw [print, lines, hlines]
  simp [String.join, Line.print, hindent, htext]

end Script

open Script in
/-- The script of an expression writes the text of its lexemes. -/
theorem Expr.flat_script {e : Expr} (h : e.Writable) (nested : Bool) :
    Flat (e.script [] nested) (textOf (e.pieces nested)) := by
  induction h generalizing nested with
  | ident => exact (flat_use _ _).of_eq (List.append_nil _)
  | number => exact (flat_code _).of_eq (List.append_nil _)
  | string => exact (flat_code _).of_eq (by simp [Expr.pieces, literalOf])
  | bool b => cases b <;> exact flat_code _
  | null => exact flat_code _
  | array _ ih =>
    rw [Expr.script, Expr.scripts_eq_map, Expr.pieces, Expr.piecesOf_eq_map]
    exact ((flat_commaSeparated fun e he => ih e he true).between _ _).of_eq (by simp [sign])
  | negate _ ih =>
    rw [Expr.script, Expr.pieces]
    split_ifs
    · exact ((ih true).between _ _).of_eq (by simp [sign])
    · exact ((flat_code "-").append (ih true)).of_eq (by simp [sign])
  | binary op _ _ ihl ihr =>
    rw [Expr.script, Expr.pieces]
    exact ((((ihl true).append (flat_code _)).append (ihr true)).between _ _).of_eq
      (by simp [sign, opLexeme, space])
  | assign _ _ _ iht ihv =>
    have hflat := ((iht true).append (flat_code " = ")).append (ihv false)
    rw [Expr.script, Expr.pieces]
    cases nested with
    | false => exact hflat.of_eq (by simp [sign, space])
    | true => exact (hflat.between _ _).of_eq (by simp [sign, space])
  | call _ _ ihc ihargs =>
    rw [Expr.script, Expr.scripts_eq_map, Expr.pieces, Expr.piecesOf_eq_map]
    exact ((ihc true).append ((flat_commaSeparated fun a ha => ihargs a ha true).between _ _)).of_eq
      (by simp [sign])
  | member _ _ ih =>
    exact ((ih true).append (flat_code _)).of_eq (by simp [Expr.pieces, sign, nameLexeme])
  | index _ _ ihb ihk =>
    exact ((ihb true).append ((ihk true).between _ _)).of_eq (by simp [Expr.pieces, sign])

/-! ## How the lexemes begin -/

/-- The lexemes start with the first token of an expression. -/
def Begins (ls : List Lexeme) : Prop :=
  ∃ kind text rest, ls = ⟨some kind, text⟩ :: rest ∧ startsExpr kind = true

theorem begins_cons {kind : Kind} (h : startsExpr kind = true) (text : List Char)
    (rest : List Lexeme) : Begins (⟨some kind, text⟩ :: rest) :=
  ⟨kind, text, rest, rfl, h⟩

theorem Begins.append {ls : List Lexeme} (h : Begins ls) (ls' : List Lexeme) :
    Begins (ls ++ ls') := by
  obtain ⟨kind, text, rest, rfl, hkind⟩ := h
  exact begins_cons hkind text (rest ++ ls')

theorem Expr.begins_pieces {e : Expr} (h : e.Writable) (nested : Bool) :
    Begins (e.pieces nested) := by
  induction h generalizing nested with
  | ident | number | string | null | array | binary => exact begins_cons rfl _ _
  | bool b => cases b <;> exact begins_cons rfl _ _
  | negate =>
    rw [Expr.pieces]
    split_ifs <;> exact begins_cons rfl _ _
  | assign _ _ _ iht =>
    cases nested with
    | false => exact (iht true).append _
    | true => exact begins_cons rfl _ _
  | call _ _ ihc => exact (ihc true).append _
  | member _ _ ih => exact (ih true).append _
  | index _ _ ihb => exact (ihb true).append _

theorem begins_commaJoined {ls : List Lexeme} (h : Begins ls) (rest : List (List Lexeme)) :
    Begins (commaJoined (ls :: rest)) := by
  cases rest with
  | nil => exact h
  | cons => exact h.append _

/-! ## The lexemes are found in their text -/

open Text (isAsciiDigit isDigit isLetter)
open Token (isWordChar)

theorem isWordChar_of_isAsciiDigit {c : Char} (h : isAsciiDigit c = true) :
    isWordChar c = true := by
  obtain ⟨hlo, hhi⟩ := Token.digitCode h
  have hcodes : ∀ n ∈ List.range' 48 10, Text.inRuns n Text.digitRuns = true := by
    decide
  have hdigit : isDigit c = true := hcodes _ (List.mem_range'_1.2 ⟨hlo, by omega⟩)
  rw [isWordChar, hdigit, Bool.or_true, Bool.true_or]

/-- A word or a number may stand before the text. -/
structure Follows (rest : List Char) : Prop where
  stops : Stops isWordChar rest
  point : ∀ after, rest = '.' :: after → Stops isAsciiDigit after

theorem Follows.stops_digit {rest : List Char} (h : Follows rest) : Stops isAsciiDigit rest := by
  intro c hc
  by_contra hdigit
  have hword := h.stops c hc
  rw [isWordChar_of_isAsciiDigit (Bool.not_eq_false _ ▸ hdigit)] at hword
  cases hword

/-- The characters behind an operand, other than a point. -/
def closers : List Char := [' ', '(', ')', '[', ']', '}', ',', ':', ';', '\n']

theorem follows_cons {c : Char} (h : c ∈ closers) (rest : List Char) : Follows (c :: rest) := by
  have hall : closers.all (fun c => !isWordChar c && c != '.') = true := by decide
  have hc := List.all_eq_true.1 hall c h
  simp only [Bool.and_eq_true, Bool.not_eq_true', bne_iff_ne] at hc
  refine ⟨Token.stops_cons.2 hc.1, fun after hafter => ?_⟩
  exact absurd (List.cons.inj hafter).1 hc.2

theorem IsName.found {name : String} (h : IsName name) {rest : List Char}
    (hrest : Stops isWordChar rest) : Found (nameLexeme name) rest := by
  obtain ⟨_, hfound⟩ := h
  obtain ⟨c, cs, htext, hc, hcs, hkind⟩ := hfound.word_of_kind rfl
  rw [nameLexeme, show name.toList = c :: cs from htext, ← hkind]
  exact .word hc hcs hrest

/-- What follows a point that stands before a name. -/
theorem IsName.follows {name : String} (h : IsName name) (rest : List Char) :
    Follows ('.' :: (name.toList ++ rest)) := by
  obtain ⟨_, hfound⟩ := h
  obtain ⟨c, cs, htext, hc, -, -⟩ := hfound.word_of_kind rfl
  refine ⟨Token.stops_cons.2 (by decide), fun after hafter => ?_⟩
  obtain rfl : name.toList ++ rest = after := (List.cons.inj hafter).2
  rw [show name.toList = c :: cs from htext]
  refine Token.stops_cons.2 ?_
  by_contra hdigit
  rw [Bool.not_eq_false] at hdigit
  rw [Token.isLetter_eq_false_of_isAsciiDigit hdigit, Bool.false_or, beq_iff_eq] at hc
  rw [hc] at hdigit
  exact absurd hdigit (by decide)

theorem Numeral.ReadsBack.found {v : Numeral} (h : v.ReadsBack) {rest : List Char}
    (hrest : Follows rest) : Found ⟨some .number, v.text.toList⟩ rest := by
  obtain ⟨_, hfound⟩ := Token.exists_found (h.1 ▸ List.mem_singleton_self _) (by simp)
  exact hfound.number_before rfl hrest.stops_digit hrest.point

/-- The characters that are tokens by themselves wherever they stand. -/
def marks : List Char := ['(', ')', '[', ']', '{', '}', ',', ':', '.', '-', ';']

theorem found_mark {c : Char} (h : c ∈ marks) (rest : List Char) : Found (sign c) rest := by
  have hall : marks.all (fun c => Token.punctuation c != .unknown && c != '/' &&
      Token.withEquals? c == none) = true := by decide
  have hc := List.all_eq_true.1 hall c h
  simp only [Bool.and_eq_true, bne_iff_ne, beq_iff_eq] at hc
  exact .symbol rfl hc.1.1 (fun hslash => absurd hslash hc.1.2) (fun hequals => absurd hc.2 hequals)

theorem found_assign (rest : List Char) : Found (sign '=') (' ' :: rest) :=
  .symbol rfl (by decide) (fun _ => Token.stops_cons.2 (by decide))
    fun _ => Token.stops_cons.2 (by decide)

theorem found_op (op : BinaryOp) (rest : List Char) : Found (opLexeme op) (' ' :: rest) := by
  cases op with
  | eq | ne | le | ge => exact .equals rfl _
  | _ =>
    exact .symbol rfl (by decide) (fun _ => Token.stops_cons.2 (by decide))
      fun _ => Token.stops_cons.2 (by decide)

theorem found_keyword (word : Keyword) {rest : List Char} (hrest : Stops isWordChar rest) :
    Found (keywordLexeme word) rest := by
  have hkind : Token.wordKind word.spelling.toList = .keyword word := by
    cases word <;> decide
  obtain ⟨c, cs, htext, hc, hcs⟩ : ∃ c cs, word.spelling.toList = c :: cs ∧
      (isLetter c || c == '_') = true ∧ cs.all isWordChar = true := by
    cases word <;> exact ⟨_, _, rfl, by decide, by decide⟩
  rw [keywordLexeme, ← hkind, htext]
  exact .word hc (List.all_eq_true.1 hcs) hrest

/-! ## Lines of lexemes -/

theorem readable_space {after : List Char} {l : Lexeme} {ls : List Lexeme} (hl : l.kind ≠ none)
    (h : Readable after (l :: ls)) : Readable after (space :: l :: ls) := by
  refine .cons ?_ h
  rw [Token.textOf_cons, List.append_assoc]
  exact Layout.found_space (Token.readable_cons.1 h).1 hl

theorem Begins.readable_space {after : List Char} {ls : List Lexeme} (hls : Begins ls)
    (h : Readable after ls) : Readable after (space :: ls) := by
  obtain ⟨kind, text, rest, rfl, -⟩ := hls
  exact Easel.readable_space (by simp) h

/-- A sign with blanks around it between two operands. -/
theorem readable_joined {after : List Char} {l : Lexeme} {ls ls' : List Lexeme}
    (hls : ∀ {rest : List Char}, Follows rest → Readable rest ls) (hkind : l.kind ≠ none)
    (hl : ∀ rest, Found l (' ' :: rest)) (hls' : Begins ls') (h : Readable after ls') :
    Readable after (ls ++ space :: l :: space :: ls') :=
  Token.readable_append.2 ⟨hls (follows_cons (by decide) _),
    readable_space hkind (.cons (hl _) (hls'.readable_space h))⟩

/-- Lexemes between two marks. -/
theorem readable_enclosed {after : List Char} {ls : List Lexeme} {c d : Char} (hc : c ∈ marks)
    (hd : d ∈ marks) (h : Readable (d :: after) ls) :
    Readable after (sign c :: (ls ++ [sign d])) :=
  .cons (found_mark hc _) (Token.readable_append.2 ⟨h, .cons (found_mark hd _) .nil⟩)

theorem readable_commaJoined {β : Type} {es : List β} {g : β → List Lexeme} {after : List Char}
    (hbegins : ∀ e ∈ es, Begins (g e))
    (h : ∀ e ∈ es, ∀ {rest : List Char}, Follows rest → Readable rest (g e))
    (hafter : Follows after) : Readable after (commaJoined (es.map g)) := by
  induction es with
  | nil => exact .nil
  | cons e es ih =>
    obtain ⟨he, hes⟩ := List.forall_mem_cons.1 h
    obtain ⟨hbegin, hbegins⟩ := List.forall_mem_cons.1 hbegins
    cases es with
    | nil => exact he hafter
    | cons e' es =>
      have hrest := (begins_commaJoined (hbegins e' List.mem_cons_self) _).readable_space
        (ih hbegins hes)
      exact Token.readable_append.2 ⟨he (follows_cons (by decide) _),
        .cons (found_mark (by decide) _) hrest⟩

/-- A scanner finds the lexemes of an expression wherever a word or number may stand. -/
theorem Expr.readable_pieces {e : Expr} (h : e.Writable) (nested : Bool) {after : List Char}
    (hafter : Follows after) : Readable after (e.pieces nested) := by
  induction h generalizing nested after with
  | ident hname => exact .cons (hname.found hafter.stops) .nil
  | number hv => exact .cons (hv.found hafter) .nil
  | string hs => exact .cons (hs.found _) .nil
  | bool | null => exact .cons (found_keyword _ hafter.stops) .nil
  | array hes ih =>
    rw [Expr.pieces, Expr.piecesOf_eq_map]
    exact readable_enclosed (by decide) (by decide) (readable_commaJoined
      (fun e he => Expr.begins_pieces (hes e he) true) (fun e he => ih e he true)
      (follows_cons (by decide) _))
  | negate _ ih =>
    rw [Expr.pieces]
    split_ifs
    · exact .cons (found_mark (by decide) _)
        (readable_enclosed (by decide) (by decide) (ih true (follows_cons (by decide) _)))
    · exact .cons (found_mark (by decide) _) (ih true hafter)
  | binary op _ hr ihl ihr =>
    rw [Expr.pieces]
    exact readable_enclosed (by decide) (by decide) (readable_joined (ihl true) (by simp [opLexeme])
      (found_op op) (Expr.begins_pieces hr true) (ihr true (follows_cons (by decide) _)))
  | assign _ _ hv iht ihv =>
    have hjoined {rest : List Char} (hrest : Follows rest) :=
      readable_joined (iht true) (by simp [sign]) found_assign (Expr.begins_pieces hv false)
        (ihv false hrest)
    cases nested with
    | false => exact hjoined hafter
    | true =>
      exact readable_enclosed (by decide) (by decide) (hjoined (follows_cons (by decide) _))
  | call _ hargs ihc ihargs =>
    rw [Expr.pieces, Expr.piecesOf_eq_map]
    exact Token.readable_append.2 ⟨ihc true (follows_cons (by decide) _),
      readable_enclosed (by decide) (by decide) (readable_commaJoined
        (fun a ha => Expr.begins_pieces (hargs a ha) true) (fun a ha => ihargs a ha true)
        (follows_cons (by decide) _))⟩
  | member _ hn ih =>
    rw [Expr.pieces]
    exact Token.readable_append.2 ⟨ih true (by simpa [sign, nameLexeme] using hn.follows after),
      .cons (found_mark (by decide) _) (.cons (hn.found hafter.stops) .nil)⟩
  | index _ _ ihb ihk =>
    rw [Expr.pieces]
    exact Token.readable_append.2 ⟨ihb true (follows_cons (by decide) _),
      readable_enclosed (by decide) (by decide) (ihk true (follows_cons (by decide) _))⟩

end Easel
