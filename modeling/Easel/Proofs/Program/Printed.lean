import Easel.Program.Printer
import Easel.Proofs.Script.Faithful

/-!
# Printed expressions are read back

The printed form of an expression shows its structure, and it is text of the language itself.  The
lexemes of that text (`Expr.printed`) are found in it, although the parts of an operand stand next
to each other without blanks: a number before the point of a member, a color before the bracket of
an index.  A parser that reads them finds the expression again: `print_readsAs`.
-/

namespace Easel

open Token (Found Kind Lexeme Readable Stops textOf)
open Layout (space)
open Easel.Parser

/-! ## Expressions that can be printed as text of the language -/

/-- An expression without shapes, whose names are no keywords, whose numbers are printed as decimals
that denote them and whose strings have printable characters other than backslashes. -/
inductive Expr.Printable : Expr → Prop
  | ident {id : Ident} (h : IsName id.name) : Printable (.ident id)
  | number (p : Position) {v : Numeral} (h : v.ReadsBack) : Printable (.number p v)
  | string (p : Position) {s : String}
      (h : ∀ c ∈ s.toList, Text.isPrintable c = true ∧ c ≠ '\\') : Printable (.string p s)
  | color (p : Position) {s : String} (h : IsColor s) : Printable (.color p s)
  | bool (p : Position) (b : Bool) : Printable (.bool p b)
  | null (p : Position) : Printable (.null p)
  | array (p : Position) {es : List Expr} (h : ∀ e ∈ es, Printable e) : Printable (.array p es)
  | object (p : Position) {ps : List (String × Expr)} (hkeys : ∀ q ∈ ps, IsName q.1)
      (h : ∀ q ∈ ps, Printable q.2) : Printable (.object p ps)
  | negate (p : Position) {e : Expr} (h : Printable e) : Printable (.negate p e)
  | binary (p : Position) (op : BinaryOp) {l r : Expr} (hl : Printable l) (hr : Printable r) :
      Printable (.binary p op l r)
  | assign {target value : Expr} (htarget : target.isTarget = true) (ht : Printable target)
      (hv : Printable value) : Printable (.assign target value)
  | call {callee : Expr} {args : List Expr} (hc : Printable callee)
      (hargs : ∀ a ∈ args, Printable a) : Printable (.call callee args)
  | member {base : Expr} {property : Ident} (hb : Printable base) (hp : IsName property.name) :
      Printable (.member base property)
  | index {base key : Expr} (hb : Printable base) (hk : Printable key) :
      Printable (.index base key)

/-! ## Strings and colors -/

theorem quoteChar_eq {c : Char} (h : Text.isPrintable c = true ∧ c ≠ '\\') :
    Text.quoteChar '"' c = if c = '"' then ['\\', '"'] else [c] := by
  by_cases hquote : c = '"'
  · subst hquote
    rfl
  · simp [Text.quoteChar, hquote, h.1, h.2]

theorem toList_quote {s : String} (h : ∀ c ∈ s.toList, Text.isPrintable c = true ∧ c ≠ '\\') :
    (Text.quote s).toList = literalOf s := by
  have hbody : s.toList.flatMap (Text.quoteChar '"') =
      s.toList.flatMap fun c => if c = '"' then ['\\', '"'] else [c] :=
    List.flatMap_congr fun c hc => quoteChar_eq (h c hc)
  simp only [Text.quote, Text.quoteChars, String.toList_ofList, hbody, literalOf,
    Script.escapeQuotes]

/-- Escaped characters other than line feeds and backslashes are the body of a string. -/
theorem stringBody_escape {cs : List Char} (h : ∀ c ∈ cs, c ≠ '\n' ∧ c ≠ '\\') :
    Token.stringBody (escape cs ++ ['"']) = (escape cs ++ ['"'], true) ∧
      Token.unescape (escape cs) = cs := by
  induction cs with
  | nil => exact ⟨rfl, rfl⟩
  | cons c cs ih =>
    obtain ⟨⟨hline, hslash⟩, hcs⟩ := List.forall_mem_cons.1 h
    obtain ⟨hbody, hunescape⟩ := ih hcs
    by_cases hquote : c = '"'
    · subst hquote
      rw [escape_quote]
      constructor
      · rw [List.cons_append, List.cons_append, Token.stringBody.eq_5 _ _ (by decide), hbody]
      · rw [Token.unescape, hunescape]
    · rw [escape_cons hquote]
      constructor
      · rw [List.cons_append, Token.stringBody.eq_6 _ _ hline hquote (fun _ hc _ => hslash hc)
          (fun _ _ hc _ => hslash hc), hbody]
      · rw [Token.unescape.eq_4 _ _ (fun _ hc _ => hslash hc) (fun _ _ hc _ => hslash hc),
          hunescape]

theorem isStringValue_of_printable {s : String}
    (h : ∀ c ∈ s.toList, Text.isPrintable c = true ∧ c ≠ '\\') : IsStringValue s := by
  have hline : ∀ c ∈ s.toList, c ≠ '\n' ∧ c ≠ '\\' := by
    intro c hc
    refine ⟨?_, (h c hc).2⟩
    rintro rfl
    exact absurd (h _ hc).1 (by decide)
  obtain ⟨hbody, hunescape⟩ := stringBody_escape hline
  have hescape : (Script.escapeQuotes s).toList = escape s.toList := String.toList_ofList
  constructor
  · intro rest
    rw [literalOf, hescape]
    exact .string hbody rest
  · rw [hescape, hunescape]

theorem stops_isColorChar {rest : List Char} (h : Stops Token.isWordChar rest) :
    Stops Token.isColorChar rest := by
  intro c hc
  have hword := h c hc
  rw [Token.isColorChar, Bool.or_eq_false_iff]
  constructor
  · by_contra hdigit
    rw [isWordChar_of_isAsciiDigit (Bool.not_eq_false _ ▸ hdigit)] at hword
    cases hword
  · rw [Token.isWordChar, Bool.or_eq_false_iff, Bool.or_eq_false_iff] at hword
    exact hword.1.1

theorem IsColor.found {s : String} (h : IsColor s) {rest : List Char}
    (hrest : Stops Token.isWordChar rest) : Found ⟨some .color, s.toList⟩ rest := by
  obtain ⟨_, hfound⟩ := h
  exact hfound.color_before rfl (stops_isColorChar hrest)

/-! ## Lexemes -/

mutual

/-- The lexemes of the printed form of an expression without shapes. -/
@[simp] def Expr.printed : Expr → List Lexeme
  | .ident id => [nameLexeme id.name]
  | .number _ value => [⟨some .number, value.text.toList⟩]
  | .string _ value => [⟨some .string, literalOf value⟩]
  | .color _ value => [⟨some .color, value.toList⟩]
  | .bool _ value => [keywordLexeme (if value then .trueKw else .falseKw)]
  | .null _ => [keywordLexeme .nullKw]
  | .array _ elements => sign '[' :: (commaJoined (Expr.printedAll elements) ++ [sign ']'])
  | .object _ properties =>
    sign '{' :: (commaJoined (Expr.printedProperties properties) ++ [sign '}'])
  | .negate _ operand => sign '(' :: sign '-' :: (operand.printed ++ [sign ')'])
  | .binary _ op left right =>
    sign '(' :: (left.printed ++ space :: opLexeme op :: space :: right.printed ++ [sign ')'])
  | .assign target value =>
    sign '(' :: (target.printed ++ space :: sign '=' :: space :: value.printed ++ [sign ')'])
  | .call callee args =>
    callee.printed ++ sign '(' :: (commaJoined (Expr.printedAll args) ++ [sign ')'])
  | .member base property => base.printed ++ [sign '.', nameLexeme property.name]
  | .index base key => base.printed ++ sign '[' :: (key.printed ++ [sign ']'])
  | .shape _ _ => []

/-- The lexemes of each of several printed expressions. -/
def Expr.printedAll : List Expr → List (List Lexeme)
  | [] => []
  | e :: rest => e.printed :: Expr.printedAll rest

/-- The lexemes of each of several printed properties. -/
def Expr.printedProperties : List (String × Expr) → List (List Lexeme)
  | [] => []
  | (key, value) :: rest =>
    (nameLexeme key :: sign ':' :: space :: value.printed) :: Expr.printedProperties rest

end

/-- The lexemes of a printed property. -/
def printedProperty (q : String × Expr) : List Lexeme :=
  nameLexeme q.1 :: sign ':' :: space :: q.2.printed

namespace Expr

theorem printedAll_eq_map (es : List Expr) : printedAll es = es.map printed := by
  induction es with
  | nil => rfl
  | cons e es ih => rw [printedAll, ih, List.map_cons]

theorem printedProperties_eq_map (ps : List (String × Expr)) :
    printedProperties ps = ps.map printedProperty := by
  induction ps with
  | nil => rfl
  | cons q ps ih => rw [printedProperties, ih, List.map_cons, printedProperty]

theorem printAll_eq_map (es : List Expr) : printAll es = es.map print := by
  induction es with
  | nil => rfl
  | cons e es ih => rw [printAll, ih, List.map_cons]

theorem printProperties_eq_map (ps : List (String × Expr)) :
    printProperties ps = ps.map fun q => q.1 ++ ": " ++ q.2.print := by
  induction ps with
  | nil => rfl
  | cons q ps ih => rw [printProperties, ih, List.map_cons]

end Expr

theorem toList_separated {β : Type} {bs : List β} {f : β → String} {g : β → List Lexeme}
    (h : ∀ b ∈ bs, (f b).toList = textOf (g b)) :
    (separated ", " (bs.map f)).toList = textOf (commaJoined (bs.map g)) := by
  induction bs with
  | nil => rfl
  | cons b bs ih =>
    obtain ⟨hb, hbs⟩ := List.forall_mem_cons.1 h
    cases bs with
    | nil =>
      rw [separated, List.map_singleton, String.intercalate_singleton]
      exact hb
    | cons b' bs =>
      have hrest := ih hbs
      rw [separated] at hrest ⊢
      rw [List.map_cons, List.map_cons, String.intercalate_cons_cons, ← List.map_cons,
        String.toList_append, String.toList_append, hb, hrest]
      simp [commaJoined, sign, space]

/-- The lexemes have the text of the printed form. -/
theorem Expr.toList_print {e : Expr} (h : e.Printable) : e.print.toList = textOf e.printed := by
  induction h with
  | ident => simp [print, printed, nameLexeme]
  | number => simp [print, printed]
  | string _ hs => simp [print, printed, toList_quote hs]
  | color => simp [print, printed]
  | bool _ b => cases b <;> simp [print, printed, keywordLexeme, Keyword.spelling]
  | null => simp [print, printed, keywordLexeme, Keyword.spelling]
  | array _ _ ih =>
    rw [print, printed, printAll_eq_map, printedAll_eq_map, String.toList_append,
      String.toList_append, toList_separated ih]
    simp [sign]
  | @object _ ps _ _ ih =>
    have heach : ∀ q ∈ ps, (q.1 ++ ": " ++ q.2.print).toList = textOf (printedProperty q) :=
      fun q hq => by simp [printedProperty, nameLexeme, sign, space, ih q hq]
    rw [print, printed, printProperties_eq_map, printedProperties_eq_map, String.toList_append,
      String.toList_append, toList_separated heach]
    simp [sign]
  | negate _ _ ih => simp [print, printed, sign, ih]
  | binary _ op _ _ ihl ihr => simp [print, printed, sign, opLexeme, space, ihl, ihr]
  | assign _ _ _ iht ihv => simp [print, printed, sign, space, iht, ihv]
  | call _ _ ihc ihargs =>
    rw [print, printed, printAll_eq_map, printedAll_eq_map, String.toList_append,
      String.toList_append, String.toList_append, toList_separated ihargs, ihc]
    simp [sign]
  | member _ _ ih => simp [print, printed, sign, nameLexeme, ih]
  | index _ _ ihb ihk => simp [print, printed, sign, ihb, ihk]

theorem Expr.begins_printed {e : Expr} (h : e.Printable) : Begins e.printed := by
  induction h with
  | bool _ b => cases b <;> exact begins_cons rfl _ _
  | call _ _ ihc => exact ihc.append _
  | member _ _ ih => exact ih.append _
  | index _ _ ihb => exact ihb.append _
  | _ => exact begins_cons rfl _ _

theorem begins_printedProperty (q : String × Expr) : Begins (printedProperty q) :=
  begins_cons rfl _ _

/-- A scanner finds the lexemes of a printed expression wherever a word or number may stand. -/
theorem Expr.readable_printed {e : Expr} (h : e.Printable) {after : List Char}
    (hafter : Follows after) : Readable after e.printed := by
  induction h generalizing after with
  | ident hname => exact .cons (hname.found hafter.stops) .nil
  | number _ hv => exact .cons (hv.found hafter) .nil
  | string _ hs => exact .cons ((isStringValue_of_printable hs).found _) .nil
  | color _ hs => exact .cons (hs.found hafter.stops) .nil
  | bool | null => exact .cons (found_keyword _ hafter.stops) .nil
  | array _ hes ih =>
    rw [printed, printedAll_eq_map]
    exact readable_enclosed (by decide) (by decide) (readable_commaJoined
      (fun e he => begins_printed (hes e he)) (fun e he => ih e he) (follows_cons (by decide) _))
  | @object _ ps hkeys hps ih =>
    have heach : ∀ q ∈ ps, ∀ {rest : List Char},
        Follows rest → Readable rest (printedProperty q) := by
      intro q hq rest hrest
      refine .cons ((hkeys q hq).found (follows_cons (c := ':') (by decide) _).stops) ?_
      exact .cons (found_mark (by decide) _)
        ((begins_printed (hps q hq)).readable_space (ih q hq hrest))
    rw [printed, printedProperties_eq_map]
    exact readable_enclosed (by decide) (by decide) (readable_commaJoined
      (fun q _ => begins_printedProperty q) heach (follows_cons (by decide) _))
  | negate _ _ ih =>
    exact .cons (found_mark (by decide) _)
      (readable_enclosed (by decide) (by decide) (ih (follows_cons (by decide) _)))
  | binary _ op _ hr ihl ihr =>
    rw [printed]
    exact readable_enclosed (by decide) (by decide) (readable_joined ihl (by simp [opLexeme])
      (found_op op) (begins_printed hr) (ihr (follows_cons (by decide) _)))
  | assign _ _ hv iht ihv =>
    rw [printed]
    exact readable_enclosed (by decide) (by decide) (readable_joined iht (by simp [sign])
      found_assign (begins_printed hv) (ihv (follows_cons (by decide) _)))
  | call _ hargs ihc ihargs =>
    rw [printed, printedAll_eq_map]
    exact Token.readable_append.2 ⟨ihc (follows_cons (by decide) _),
      readable_enclosed (by decide) (by decide) (readable_commaJoined
        (fun a ha => begins_printed (hargs a ha)) (fun a ha => ihargs a ha)
        (follows_cons (by decide) _))⟩
  | member _ hp ih =>
    rw [printed]
    exact Token.readable_append.2 ⟨ih (by simpa [sign, nameLexeme] using hp.follows after),
      .cons (found_mark (by decide) _) (.cons (hp.found hafter.stops) .nil)⟩
  | index _ _ ihb ihk =>
    rw [printed]
    exact Token.readable_append.2 ⟨ihb (follows_cons (by decide) _),
      readable_enclosed (by decide) (by decide) (ihk (follows_cons (by decide) _))⟩

theorem Expr.isCode_printed {e : Expr} (h : e.Printable) : e.printed.all isCode = true := by
  have each {β : Type} {bs : List β} {g : β → List Lexeme}
      (hbs : ∀ b ∈ bs, (g b).all isCode = true) :
      (commaJoined (bs.map g)).all isCode = true := by
    refine isCode_commaJoined fun ls hls => ?_
    obtain ⟨b, hb, rfl⟩ := List.mem_map.1 hls
    exact hbs b hb
  induction h with
  | ident | number | string | color | bool | null => rfl
  | array _ _ ih => simp [printed, printedAll_eq_map, each ih]
  | @object _ ps _ _ ih =>
    have heach : ∀ q ∈ ps, (printedProperty q).all isCode = true :=
      fun q hq => by simp [printedProperty, ih q hq]
    simp [printed, printedProperties_eq_map, each heach]
  | negate _ _ ih => simp [printed, ih]
  | binary _ _ _ _ ihl ihr => simp [printed, ihl, ihr]
  | assign _ _ _ iht ihv => simp [printed, iht, ihv]
  | call _ _ ihc ihargs => simp [printed, printedAll_eq_map, ihc, each ihargs]
  | member _ _ ih => simp [printed, ih]
  | index _ _ ihb ihk => simp [printed, ihb, ihk]

/-! ## Tokens -/

namespace Expr

/-- The tokens of the printed form of an expression. -/
def printedTokens (e : Expr) : List Token := bareTokens e.printed

/-- The tokens of a printed property. -/
def propertyTokens (q : String × Expr) : List Token :=
  nameToken q.1 :: mark ':' :: q.2.printedTokens

theorem printedTokens_array (p : Position) (es : List Expr) :
    (array p es).printedTokens =
      mark '[' :: (itemTokens (mark ',') printedTokens es ++ [mark ']']) := by
  rw [printedTokens, printed, bareTokens_sign, bareTokens_append, printedAll_eq_map,
    bareTokens_commaJoined]
  rfl

theorem bareTokens_printedProperty (q : String × Expr) :
    bareTokens (printedProperty q) = propertyTokens q := by
  rw [printedProperty, ← List.singleton_append, bareTokens_append, bareTokens_name, bareTokens_sign,
    bareTokens_space]
  rfl

theorem printedTokens_object (p : Position) (ps : List (String × Expr)) :
    (object p ps).printedTokens =
      mark '{' :: (itemTokens (mark ',') propertyTokens ps ++ [mark '}']) := by
  rw [printedTokens, printed, bareTokens_sign, bareTokens_append, printedProperties_eq_map,
    bareTokens_commaJoined, funext bareTokens_printedProperty]
  rfl

theorem printedTokens_negate (p : Position) (a : Expr) :
    (negate p a).printedTokens = mark '(' :: ((mark '-' :: a.printedTokens) ++ [mark ')']) := by
  rw [printedTokens, printed, bareTokens_sign, bareTokens_sign, bareTokens_append]
  rfl

theorem printedTokens_binary (p : Position) (op : BinaryOp) (l r : Expr) :
    (binary p op l r).printedTokens =
      mark '(' :: ((l.printedTokens ++ opToken op :: r.printedTokens) ++ [mark ')']) := by
  simp only [printedTokens, printed, bareTokens_sign, bareTokens_append, bareTokens_space,
    bareTokens_op, List.append_assoc, List.cons_append]
  rfl

theorem printedTokens_assign (t v : Expr) :
    (assign t v).printedTokens =
      mark '(' :: ((t.printedTokens ++ mark '=' :: v.printedTokens) ++ [mark ')']) := by
  simp only [printedTokens, printed, bareTokens_sign, bareTokens_append, bareTokens_space,
    List.append_assoc, List.cons_append]
  rfl

theorem printedTokens_call (c : Expr) (args : List Expr) :
    (call c args).printedTokens =
      c.printedTokens ++ mark '(' :: (itemTokens (mark ',') printedTokens args ++ [mark ')']) := by
  rw [printedTokens, printed, bareTokens_append, bareTokens_sign, bareTokens_append,
    printedAll_eq_map, bareTokens_commaJoined]
  rfl

theorem printedTokens_member (b : Expr) (q : Ident) :
    (member b q).printedTokens = b.printedTokens ++ [mark '.', nameToken q.name] := by
  rw [printedTokens, printed, bareTokens_append, bareTokens_sign, bareTokens_name]
  rfl

theorem printedTokens_index (b key : Expr) :
    (index b key).printedTokens =
      b.printedTokens ++ mark '[' :: (key.printedTokens ++ [mark ']']) := by
  rw [printedTokens, printed, bareTokens_append, bareTokens_sign, bareTokens_append]
  rfl

/-- The first token of a printed expression tells it from a closing token. -/
theorem exists_printedTokens_cons {e : Expr} (h : e.Printable) :
    ∃ t rest, e.printedTokens = t :: rest ∧ startsExpr t.kind = true := by
  obtain ⟨kind, text, rest, heq, hkind⟩ := begins_printed h
  rw [printedTokens, heq]
  exact ⟨_, _, rfl, hkind⟩

/-- The expression without its positions. -/
def unplaced (e : Expr) : Expr := e.relocate fun _ => {}

theorem unplaced_unplaced {e : Expr} (h : e.Printable) : e.unplaced.unplaced = e.unplaced := by
  induction h with
  | array _ _ ih => simpa [unplaced, relocate, relocateAll_eq_map] using ih
  | object _ _ _ ih => simpa [unplaced, relocate, relocateProperties_eq_map] using ih
  | call _ _ ihc ihargs =>
    simp only [unplaced] at ihc ihargs
    simpa [unplaced, relocate, relocateAll_eq_map, ihc] using ihargs
  | negate _ _ ih => exact congrArg (negate {}) ih
  | binary _ op _ _ ihl ihr => exact congrArg₂ (binary {} op) ihl ihr
  | assign _ _ _ iht ihv => exact congrArg₂ assign iht ihv
  | member _ _ ih => exact congrArg (member · _) ih
  | index _ _ ihb ihk => exact congrArg₂ index ihb ihk
  | _ => rfl

end Expr

/-! ## What is read -/

/-- The printed form is read as the expression itself. -/
def Expr.PrintReads (e : Expr) : Prop := AsOperand e.printedTokens (· e.unplaced)

variable {e : Expr}

theorem Expr.PrintReads.whole (h : e.PrintReads) : AsWhole e.printedTokens (some e.unplaced) :=
  AsOperand.whole h

theorem asOperand_printedObject {ps : List (String × Expr)}
    (h : ∀ q ∈ ps, AsWhole q.2.printedTokens (some q.2.unplaced)) :
    AsOperand (mark '{' :: (itemTokens (mark ',') Expr.propertyTokens ps ++ [mark '}']))
      (· (.object {} (ps.map fun q => (q.1, q.2.unplaced)))) := by
  let value (q : String × Expr) : Option (String × Expr) := pure (q.1, q.2.unplaced)
  have hvalues : ps.mapM value = some (ps.map fun q => (q.1, q.2.unplaced)) := List.mapM_pure
  refine asOperand_of_primary (o := some _) rfl fun n rest hn => ?_
  simp only [List.length_cons, List.length_append, List.length_nil] at hn
  obtain ⟨hcount, heach⟩ := length_le_itemTokens (mark ',') Expr.propertyTokens ps
  have hitems : (itemsUntil n (property (expressionWithin n)) .rbrace
      r"Expected } after object properties"
      (itemTokens (mark ',') Expr.propertyTokens ps ++ mark '}' :: rest)).Gives (ps.mapM value)
      rest := by
    have hbrace : (mark '}').kind = .rbrace := rfl
    refine gives_itemsUntil rfl hbrace (by decide) rfl ?_ ?_ (by omega) _
    · intro q hq t rest hkind
      have hlength := heach q hq
      rw [Expr.propertyTokens, List.length_cons, List.length_cons] at hlength
      have hkey : (nameToken q.1).kind = .identifier := rfl
      have hclose : closesExpr t.kind = true := by rcases hkind with hk | hk <;> rw [hk] <;> rfl
      exact gives_property hkey rfl (h q hq (by omega) hclose)
    · intro q _
      exact ⟨nameToken q.1, _, rfl, rfl, by simp [nameToken]⟩
  rw [List.append_assoc]
  have hobject := gives_object (t := mark '{') rfl hitems
  rwa [hvalues] at hobject

theorem printReads_negate (p : Position) {a : Expr} (h : a.PrintReads) :
    (Expr.negate p a).PrintReads := by
  rw [Expr.PrintReads, Expr.printedTokens_negate]
  exact asOperand_parens (asOperand_minus h).whole

theorem printReads_binary (p : Position) (op : BinaryOp) {l r : Expr} (hl : l.PrintReads)
    (hr : r.PrintReads) : (Expr.binary p op l r).PrintReads := by
  rw [Expr.PrintReads, Expr.printedTokens_binary]
  exact asOperand_parens (asWhole_binary op hl hr)

theorem printReads_assign {target value : Expr} (htarget : target.isTarget = true)
    (ht : target.PrintReads) (hv : value.PrintReads) : (Expr.assign target value).PrintReads := by
  have hunplaced : target.unplaced.isTarget = true :=
    (Expr.isTarget_relocate _ _).trans htarget
  have hassign := asWhole_assign ht hv.whole
  simp only [Option.bind_some, hunplaced, if_true] at hassign
  rw [Expr.PrintReads, Expr.printedTokens_assign]
  exact asOperand_parens hassign

/-- Every printed expression is read as itself. -/
theorem printReads_of_printable (h : e.Printable) : e.PrintReads := by
  have each {es : List Expr} (hes : ∀ e ∈ es, e.PrintReads) :
      ∀ e ∈ es, AsWhole e.printedTokens (pure e.unplaced) := fun e he => (hes e he).whole
  have starts {es : List Expr} (hes : ∀ e ∈ es, e.Printable) :
      ∀ e ∈ es, ∃ t rest, e.printedTokens = t :: rest ∧ startsExpr t.kind = true :=
    fun e he => Expr.exists_printedTokens_cons (hes e he)
  induction h with
  | @ident id _ =>
    rw [Expr.PrintReads, Expr.printedTokens, Expr.printed, bareTokens_name]
    exact asOperand_leaf rfl rfl
  | @number p v hv =>
    have heq : (Expr.number p v).printedTokens = [⟨.number, v.text, {}, 0⟩] := by
      simp [Expr.printedTokens, Expr.printed, bareTokens]
    rw [Expr.PrintReads, heq]
    exact asOperand_number hv.2
  | string p hs => exact asOperand_leaf rfl (leaf?_literalOf (isStringValue_of_printable hs))
  | @color p s _ =>
    have heq : (Expr.color p s).printedTokens = [⟨.color, s, {}, 0⟩] := by
      simp [Expr.printedTokens, Expr.printed, bareTokens]
    rw [Expr.PrintReads, heq]
    exact asOperand_leaf rfl rfl
  | bool p b => cases b <;> exact asOperand_leaf rfl rfl
  | null => exact asOperand_leaf rfl rfl
  | array p hes ih =>
    rw [Expr.PrintReads, Expr.printedTokens_array]
    refine (asOperand_array (each ih) (starts hes)).congr fun k => ?_
    rw [List.mapM_pure, Expr.unplaced, Expr.relocate, Expr.relocateAll_eq_map]
    rfl
  | object p _ _ ih =>
    rw [Expr.PrintReads, Expr.printedTokens_object]
    refine (asOperand_printedObject fun q hq => (ih q hq).whole).congr fun k => ?_
    rw [Expr.unplaced, Expr.relocate, Expr.relocateProperties_eq_map]
    rfl
  | negate p _ ih => exact printReads_negate p ih
  | binary p op _ _ ihl ihr => exact printReads_binary p op ihl ihr
  | assign htarget _ _ iht ihv => exact printReads_assign htarget iht ihv
  | @call callee args _ hargs ihc ihargs =>
    have hcall : (Expr.call callee args).unplaced =
        .call callee.unplaced (args.map Expr.unplaced) := by
      rw [Expr.unplaced, Expr.relocate, Expr.relocateAll_eq_map]
      rfl
    rw [Expr.PrintReads, Expr.printedTokens_call]
    refine (asOperand_call (each ihargs) (starts hargs) ihc).congr fun k => ?_
    rw [List.mapM_pure, hcall]
    rfl
  | member _ _ ih =>
    rw [Expr.PrintReads, Expr.printedTokens_member]
    exact asOperand_member ih _
  | index _ _ ihb ihk =>
    rw [Expr.PrintReads, Expr.printedTokens_index]
    exact asOperand_index ihb ihk.whole

/-- A program that is a printed expression. -/
theorem parse_printedTokens (h : e.Printable) :
    parse (e.printedTokens ++ [endToken]) = ([.expr e.unplaced], []) := by
  obtain ⟨t, more, htokens, ht⟩ := Expr.exists_printedTokens_cons h
  have hread : (expressionWithin ((e.printedTokens ++ [endToken]).length + 2)
      (e.printedTokens ++ [endToken])).Gives (some e.unplaced) [endToken] :=
    (printReads_of_printable h).whole (by rw [List.length_append]; omega) rfl
  rw [htokens] at hread ⊢
  exact (parse_single (.inl rfl) ht hread).1 _ rfl

/-- The printed form of an expression is read without a fault, and it is one statement that holds
the expression up to positions. -/
theorem print_readsAs (h : e.Printable) : ReadsAs e.print e := by
  have hlexemes : Token.lexemes e.print.toList = e.printed ++ [] := by
    rw [List.append_nil, Expr.toList_print h]
    exact Token.lexemes_textOf (Expr.readable_printed h ⟨Token.stops_nil _, by simp⟩)
  have hlines := sameLines_line (Expr.isCode_printed h) (.inl rfl) hlexemes
  obtain ⟨hprogram, hfaults⟩ := parse_of_sameLines hlines.significant_both
  rw [← Expr.printedTokens, parse_printedTokens h] at hprogram hfaults
  refine ⟨List.length_eq_zero_iff.1 hfaults, hprogram.trans ?_⟩
  rw [unplaced_single, ← Expr.unplaced, Expr.unplaced_unplaced h]
  rfl

/-- A number before a point, a color before a bracket and a negation before a call keep their
grouping. -/
theorem print_readsAs_adjacent :
    let half : Expr := .number ⟨1, 1⟩ ⟨6755399441055744, 1022⟩
    let target : Expr := .index (.member half ⟨⟨1, 5⟩, "x"⟩) (.index (.color ⟨1, 7⟩ "#f0f") half)
    let value : Expr := .object ⟨2, 1⟩ [("a", .call (.negate ⟨2, 5⟩ (.negate ⟨2, 6⟩ half)) []),
      ("b", .binary ⟨2, 9⟩ .sub (.array ⟨2, 8⟩ [.string ⟨2, 9⟩ "say \"hi\"", .null ⟨3, 1⟩])
        (.assign target (.bool ⟨3, 2⟩ true)))]
    let e : Expr := .assign target value
    e.Printable ∧
      e.print = r"(1.5.x[#f0f[1.5]] = {a: (-(-1.5))(), " ++
        r#"b: (["say \"hi\"", null] - (1.5.x[#f0f[1.5]] = true))})"# ∧
      ReadsAs e.print e := by
  intro half target value e
  have name {s : String} (h : Token.lexemes s.toList = [⟨some .identifier, s.toList⟩]) :
      IsName s := Token.exists_found (h ▸ List.mem_singleton_self _) (by simp)
  have hhalf : half.Printable := .number _ ⟨by decide +kernel, by decide +kernel⟩
  have hcolor : IsColor "#f0f" :=
    ⟨[], .color (List.all_eq_true.1 (by decide)) (Token.stops_nil _)⟩
  have htarget : target.Printable :=
    .index (.member hhalf (name (by decide))) (.index (.color _ hcolor) hhalf)
  have hlist : ∀ e ∈ [Expr.string ⟨2, 9⟩ "say \"hi\"", .null ⟨3, 1⟩], e.Printable := by
    have hchars : ("say \"hi\"".toList.all fun c => Text.isPrintable c && c != '\\') = true := by
      decide +kernel
    simp only [List.forall_mem_cons]
    exact ⟨.string _ fun c hc => by simpa using List.all_eq_true.1 hchars c hc, .null _,
      List.forall_mem_nil _⟩
  have hvalue : value.Printable := by
    refine .object _ ?_ ?_ <;> simp only [List.forall_mem_cons]
    · exact ⟨name (by decide), name (by decide), List.forall_mem_nil _⟩
    · exact ⟨.call (.negate _ (.negate _ hhalf)) (List.forall_mem_nil _),
        .binary _ _ (.array _ hlist) (.assign rfl htarget (.bool _ _)), List.forall_mem_nil _⟩
  have he : e.Printable := .assign rfl htarget hvalue
  exact ⟨he, by decide +kernel, print_readsAs he⟩

end Easel
