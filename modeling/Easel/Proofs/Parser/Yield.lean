import Easel.Proofs.Parser.Reads
import Easel.Proofs.Token.Places

/-!
# What expression parsers yield

A hereditary property holds of every expression that is read from tokens of a class, such as those
of a source: `yields_expressionWithin`.  So the names in such an expression are names of the language,
its strings are values that can be written as literals again, and values are assigned to targets only
(`wellformed_expressionWithin`).
-/

namespace Easel

open Token (Found Lexeme Kind stringBody unescape)

/-! ## Names and strings -/

/-- The text is a name of the language. -/
def IsName (s : String) : Prop := ∃ rest, Found ⟨some .identifier, s.toList⟩ rest

/-- The text is a color of the language. -/
def IsColor (s : String) : Prop := ∃ rest, Found ⟨some .color, s.toList⟩ rest

/-- The characters of a string literal with the value `s`, quotes included. -/
def literalOf (s : String) : List Char := '"' :: ((Script.escapeQuotes s).toList ++ ['"'])

/-- The text is the value of a string literal, and with its quotes escaped it is read as itself. -/
structure IsStringValue (s : String) : Prop where
  found : ∀ rest, Found ⟨some .string, literalOf s⟩ rest
  unescape_eq : unescape (Script.escapeQuotes s).toList = s.toList

/-- The characters with a backslash before each quote. -/
def escape (cs : List Char) : List Char := cs.flatMap fun c => if c = '"' then ['\\', '"'] else [c]

theorem escape_quote (cs : List Char) : escape ('"' :: cs) = '\\' :: '"' :: escape cs := rfl

theorem escape_cons {c : Char} (h : c ≠ '"') (cs : List Char) :
    escape (c :: cs) = c :: escape cs := by
  rw [escape, List.flatMap_cons, if_neg h]
  rfl

/-- Between the quotes of a literal nothing is escaped but quotes, and those all are. -/
theorem escape_unescape {cs : List Char} (h : stringBody cs = (cs, true)) :
    ∃ inner, cs = inner ++ ['"'] ∧ escape (unescape inner) = inner := by
  fun_induction stringBody cs with
  | case1 | case2 | case4 => cases h
  | case3 rest =>
    cases h
    exact ⟨[], rfl, rfl⟩
  | case5 c rest _ text closed heq ih =>
    cases h
    obtain ⟨inner, rfl, hinner⟩ := ih heq
    refine ⟨'\\' :: c :: inner, rfl, ?_⟩
    by_cases hc : c = '"'
    · subst hc
      rw [unescape, escape_quote, hinner]
    · rw [unescape.eq_3 _ _ (fun h => hc h), escape_cons (by decide), escape_cons hc, hinner]
  | case6 c rest hline hquote _ hescape text closed heq ih =>
    cases h
    have hslash : c ≠ '\\' := by
      rintro rfl
      cases rest with
      | nil => cases heq
      | cons d rest => exact hescape d rest rfl rfl
    obtain ⟨inner, rfl, hinner⟩ := ih heq
    refine ⟨c :: inner, rfl, ?_⟩
    rw [unescape.eq_4 _ _ (fun _ h _ => hslash h) (fun _ _ h _ => hslash h),
      escape_cons hquote, hinner]

/-! ## Tokens -/

/-- A token as it stands in a source. -/
structure Token.Genuine (t : Token) : Prop where
  isName : t.kind = .identifier → IsName t.lexeme
  isStringValue : t.kind = .string → IsStringValue t.lexeme
  isColor : t.kind = .color → IsColor t.lexeme

/-- Between the quotes of a string token stands its value with the quotes escaped. -/
theorem Token.exists_inner {t : Token} {rest : List Char}
    (h : Found ⟨some t.kind, t.text.toList⟩ rest) (hk : t.kind = .string) :
    ∃ inner, t.text.toList = '"' :: (inner ++ ['"']) ∧
      stringBody (inner ++ ['"']) = (inner ++ ['"'], true) ∧
      t.lexeme = String.ofList (unescape inner) ∧ (Script.escapeQuotes t.lexeme).toList = inner := by
  obtain ⟨cs, htext, hbody⟩ := h.string_of_kind (congrArg some hk)
  obtain ⟨inner, rfl, hinner⟩ := escape_unescape hbody
  have hlexeme : t.lexeme = String.ofList (unescape inner) := by
    have hchars : t.text.toList = '"' :: (inner ++ ['"']) := htext
    rw [Token.lexeme, hk]
    simp only [hchars, List.drop_one, List.tail_cons, List.dropLast_concat]
  refine ⟨inner, htext, hbody, hlexeme, ?_⟩
  rw [Script.escapeQuotes, hlexeme, String.toList_ofList, String.toList_ofList]
  exact hinner

theorem Token.genuine_of_found {t : Token} {rest : List Char}
    (h : Found ⟨some t.kind, t.text.toList⟩ rest) : t.Genuine := by
  refine ⟨?_, ?_, ?_⟩
  · intro hk
    rw [hk] at h
    rw [Token.lexeme, hk]
    exact ⟨rest, h⟩
  on_goal 2 =>
    intro hk
    rw [hk] at h
    rw [Token.lexeme, hk]
    exact ⟨rest, h⟩
  · intro hk
    obtain ⟨inner, -, hbody, hlexeme, hescape⟩ := Token.exists_inner h hk
    refine ⟨fun rest => ?_, ?_⟩
    · rw [literalOf, hescape]
      exact .string hbody rest
    · rw [hescape, hlexeme, String.toList_ofList]

theorem Token.genuine_of_ne {t : Token} (hname : t.kind ≠ .identifier)
    (hstring : t.kind ≠ .string) (hcolor : t.kind ≠ .color) : t.Genuine :=
  ⟨fun hk => absurd hk hname, fun hk => absurd hk hstring, fun hk => absurd hk hcolor⟩

theorem Token.genuine_beyond : Token.beyond.Genuine :=
  genuine_of_ne (by decide) (by decide) (by decide)

/-- A token of a source, unless it is unknown or the end, is found where it stands. -/
theorem Token.found_of_mem_lex {source : String} {t : Token} (h : t ∈ Token.lex source)
    (hunknown : t.kind ≠ .unknown) (heof : t.kind ≠ .eof) :
    ∃ rest, Found ⟨some t.kind, t.text.toList⟩ rest := by
  obtain ⟨eof, hend, -, hlex⟩ := Layout.lexWithComments_eq source
  have hmem := Token.mem_lexWithComments_of_mem_lex h
  rw [hlex] at hmem
  rcases List.mem_append.1 hmem with hmem | hmem
  · obtain ⟨⟨_, _⟩, hl, rfl, rfl⟩ := Layout.exists_of_mem_placed hmem
    exact Token.exists_found hl (by simpa using hunknown)
  · exact absurd (List.mem_singleton.1 hmem ▸ hend) heof

theorem Token.genuine_lex (source : String) : ∀ t ∈ Token.lex source, t.Genuine := by
  intro t ht
  by_cases hunknown : t.kind = .unknown
  · exact Token.genuine_of_ne (by simp [hunknown]) (by simp [hunknown]) (by simp [hunknown])
  by_cases heof : t.kind = .eof
  · exact Token.genuine_of_ne (by simp [heof]) (by simp [heof]) (by simp [heof])
  obtain ⟨rest, hfound⟩ := Token.found_of_mem_lex ht hunknown heof
  exact Token.genuine_of_found hfound

/-! ## Wellformed expressions -/

/-- Names are names, strings can be written as literals, and values are assigned to targets. -/
inductive Expr.Wellformed : Expr → Prop
  | ident {id : Ident} (h : IsName id.name) : Wellformed (.ident id)
  | number (p : Position) (v : Numeral) : Wellformed (.number p v)
  | string (p : Position) {s : String} (h : IsStringValue s) : Wellformed (.string p s)
  | color (p : Position) (s : String) : Wellformed (.color p s)
  | bool (p : Position) (b : Bool) : Wellformed (.bool p b)
  | null (p : Position) : Wellformed (.null p)
  | array (p : Position) {es : List Expr} (h : ∀ e ∈ es, Wellformed e) : Wellformed (.array p es)
  | object (p : Position) (ps : List (String × Expr)) : Wellformed (.object p ps)
  | negate (p : Position) {e : Expr} (h : Wellformed e) : Wellformed (.negate p e)
  | binary (p : Position) (op : BinaryOp) {l r : Expr} (hl : Wellformed l) (hr : Wellformed r) :
      Wellformed (.binary p op l r)
  | assign {target value : Expr} (htarget : target.isTarget = true) (ht : Wellformed target)
      (hv : Wellformed value) : Wellformed (.assign target value)
  | call {callee : Expr} {args : List Expr} (hc : Wellformed callee)
      (hargs : ∀ a ∈ args, Wellformed a) : Wellformed (.call callee args)
  | member {base : Expr} {property : Ident} (hb : Wellformed base) (hp : IsName property.name) :
      Wellformed (.member base property)
  | index {base key : Expr} (hb : Wellformed base) (hk : Wellformed key) :
      Wellformed (.index base key)
  | shape (p : Position) (s : Shape) : Wellformed (.shape p s)

theorem Ident.From.isName {id : Ident} (h : id.From Token.Genuine) : IsName id.name := by
  obtain ⟨t, ht, hk, rfl⟩ := h
  exact ht.isName hk

theorem Expr.wellformed_leaf {t : Token} (ht : t.Genuine) {e : Expr}
    (he : Parser.leaf? t = some e) : Wellformed e := by
  unfold Parser.leaf? at he
  split at he <;> cases he
  case h_1 hk => exact .string _ (ht.isStringValue hk)
  case h_6 hk => exact .ident (ht.isName hk)
  all_goals constructor

theorem Expr.hereditary_wellformed : Hereditary Token.Genuine Wellformed where
  leaf := wellformed_leaf
  number _ := .number _
  array _ _ := .array _
  object _ ps _ := .object _ ps
  negate _ _ := .negate _
  binary _ := .binary _
  assign := .assign
  call := .call
  member hb hp := .member hb hp.isName
  index := .index
  shape _ s _ _ := .shape _ s

namespace Parser

variable {α : Type}

/-- What the parser reads from tokens of the class `T` has the property. -/
def Yields (T : Token → Prop) (Q : α → Prop) (p : Parser α) : Prop :=
  T .beyond → ∀ ts : List Token, (∀ t ∈ ts, T t) → ∀ a, (p ts).result = .ok a → Q a

/-- Every expression that is read from tokens of a class has a hereditary property. -/
theorem yields_expressionWithin {T : Token → Prop} {Q : Expr → Prop} (hQ : Expr.Hereditary T Q)
    (n : Nat) : Yields T Q (expressionWithin n) := fun hbeyond ts hts =>
  have hsteps : Steps False Q ts (expressionWithin n ts) :=
    reads_expressionWithin hQ n ts hbeyond hts
  hsteps.value

/-- Every expression that is read from tokens of a source is wellformed. -/
theorem wellformed_expressionWithin (n : Nat) : Yields Token.Genuine Expr.Wellformed (expressionWithin n) :=
  yields_expressionWithin Expr.hereditary_wellformed n

end Parser

end Easel
