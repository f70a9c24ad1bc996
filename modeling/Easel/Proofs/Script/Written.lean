import Easel.Proofs.Parser.Provenance
import Easel.Proofs.Script.Brackets
import Easel.Proofs.Script.Everywhere
import Mathlib.Tactic.FinCases

/-!
# Programs are written line after line, with their brackets closed

`Nests ends Q a o s b q` says that a script leads from a spot inside the open brackets `o` to a spot
inside the open brackets `q`, with its layout and without.  The script of an expression goes on with
its line, ends inside a line and closes the brackets it opens, also where it is a shape that is drawn
over several lines (`Expr.Written`).  The script of a statement consists of whole lines and closes
the brackets it opens (`Stmt.closed_script`), and so does that of a program that is read from a
source (`closed_parse`).
-/

namespace Easel

namespace Script

variable {ends : LineEnds} {Q : Char → Prop} {a b c : Spot} {o p q cs ds : List Char} {s t : Script}
  {text : String}

/-! ## Texts of a pattern -/

/-- In code, characters without the end of a line lead from some open brackets to others. -/
abbrev Turns (o cs q : List Char) : Prop := Passes ⟨.code, o⟩ cs ⟨.code, q⟩

/-- Whether a text of these characters may stand at the spot. -/
def Spot.takes : Spot → List Char → Bool
  | .fresh, cs => openLine cs
  | .inside, cs => areInline cs

/-- The characters may stand at the spot, and they lead from some open brackets to others. -/
abbrev Fits (a : Spot) (o cs q : List Char) : Prop := a.takes cs = true ∧ Turns o cs q

theorem turns_fixed (h : Turns o cs q) : Turns o (String.ofList cs).toList q := by
  rwa [String.toList_ofList]

theorem fits_fixed (h : Fits a o cs q) : Fits a o (String.ofList cs).toList q := by
  rwa [String.toList_ofList]

theorem Turns.lineFeed_not_mem (h : Turns o cs q) : '\n' ∉ cs :=
  fun hmem => absurd (h.bare '\n' hmem) (by decide)

theorem Spot.takes_append (h : a.takes cs = true) (hds : '\n' ∉ ds) : a.takes (cs ++ ds) = true := by
  cases cs <;> cases a <;> simp_all [takes, openLine, areInline]

/-- A text that starts a line may stand anywhere. -/
theorem Spot.takes_of_fresh (h : Spot.fresh.takes cs = true) (a : Spot) : a.takes cs = true := by
  cases a <;> simp_all [takes, openLine]

theorem Fits.append (hcs : Fits a o cs p) (hds : Turns p ds q) : Fits a o (cs ++ ds) q :=
  ⟨Spot.takes_append hcs.1 hds.lineFeed_not_mem, hcs.2.append hds⟩

theorem fits_append {t u : String} (ht : Fits a o t.toList p) (hu : Turns p u.toList q) :
    Fits a o (t ++ u).toList q := by
  rw [String.toList_append]
  exact ht.append hu

theorem nextAfterText_of_takes (h : a.takes text.toList = true) :
    nextAfterText text a = some .inside := by
  cases a <;> exact if_pos h

theorem fits_quote (s : String) : Fits .inside [] (Text.quote s).toList [] := by
  have hturns : Turns [] (Text.quote s).toList [] := passes_quote s []
  refine ⟨?_, hturns⟩
  simpa [Spot.takes, areInline, Text.quote, Text.quoteChars] using hturns.lineFeed_not_mem

/-- A text that names something: it starts a line wherever it stands first, and readers of brackets
pass it. -/
structure Word (text : String) : Prop where
  opens : opensLine text = true
  plain : ∀ c ∈ text.toList, isPlain c = true

namespace Word

theorem fixed (h : (openLine cs && cs.all isPlain) = true) : Word (String.ofList cs) := by
  rw [Bool.and_eq_true, List.all_eq_true] at h
  exact ⟨opensLine_ofList h.1, by rw [String.toList_ofList]; exact h.2⟩

theorem fits (h : Word text) (a : Spot) (o : List Char) : Fits a o text.toList o :=
  ⟨Spot.takes_of_fresh h.opens a, .of_plain h.plain o⟩

theorem append {t u : String} (ht : Word t) (hu : ∀ c ∈ u.toList, isPlain c = true) :
    Word (t ++ u) := by
  refine ⟨opensLine_append ht.opens (Turns.lineFeed_not_mem (.of_plain hu [])), ?_⟩
  rw [String.toList_append]
  exact List.forall_mem_append.2 ⟨ht.plain, hu⟩

theorem capture (h : Word text) : Word (captureName text) :=
  h.append (List.all_eq_true.1 (by decide))

theorem spell (h : Word text) (captured : List String) : Word (spell captured text) := by
  unfold Easel.spell
  split
  · exact h.capture
  · exact h

end Word

/-! ## Scripts -/

/-- From a spot inside some brackets the script leads to a spot inside others, with its layout and
without. -/
structure Nests (ends : LineEnds) (Q : Char → Prop) (a : Spot) (o : List Char) (s : Script)
    (b : Spot) (q : List Char) : Prop where
  leads : Leads a s b
  spells : ∀ layout, Spells ends Q o (flat layout s) q

/-- From one spot to another, the script closes the brackets it opens, and no others. -/
def Closed (ends : LineEnds) (Q : Char → Prop) (a : Spot) (s : Script) (b : Spot) : Prop :=
  ∀ o, Nests ends Q a o s b o

theorem Nests.append (hs : Nests ends Q a o s b p) (ht : Nests ends Q b p t c q) :
    Nests ends Q a o (s ++ t) c q := by
  refine ⟨hs.leads.append ht.leads, fun layout => ?_⟩
  rw [flat_append]
  exact (hs.spells layout).append (ht.spells layout)

/-- An item that shows a text of code. -/
theorem nests_text {i : Item} (hnext : i.content.next a = nextAfterText i.content.text a)
    (hlayout : i.isLayout = false) (hends : i.endsLine = false)
    (ha : a.takes i.content.text.toList = true) (h : Spells ends Q o i.content.text.toList q) :
    Nests ends Q a o [i] .inside q := by
  refine ⟨leads_singleton.2 (hnext.trans (nextAfterText_of_takes ha)), fun layout => ?_⟩
  have hflat : flat layout [i] = i.content.text.toList := by
    simp [flat, Item.chars, hlayout, hends]
  rwa [hflat]

theorem nests_code (ha : a.takes text.toList = true) (h : Spells ends Q o text.toList q) :
    Nests ends Q a o (code text) .inside q :=
  nests_text rfl rfl rfl ha h

/-- A fixed text inside a line. -/
theorem nests_fixed (o q : List Char) (h : Fits .inside o cs q) (p : List Char) :
    Nests ends Q .inside (o ++ p) (code (String.ofList cs)) .inside (q ++ p) :=
  nests_code (fits_fixed h).1 ((turns_fixed h.2).inside p).spells

/-- A fixed text that may start a line. -/
theorem nests_start (o q : List Char) (h : Fits .fresh o cs q) (a : Spot) (p : List Char) :
    Nests ends Q a (o ++ p) (code (String.ofList cs)) .inside (q ++ p) :=
  nests_code (Spot.takes_of_fresh (fits_fixed h).1 a) ((turns_fixed h.2).inside p).spells

theorem nests_map {f : Item → Item} (hf : ∀ i, (f i).content = i.content)
    (h : Nests ends Q a o s b q) : Nests ends Q a o (s.map f) b q := by
  refine ⟨(leads_map hf).2 h.leads, fun layout => ?_⟩
  rw [flat_map layout hf]
  exact h.spells layout

theorem nests_inScope (h : Nests ends Q a o s b q) : Nests ends Q a o (inScope s) b q := by
  have hleave : Leads b [{ content := .leave }] b := rfl
  refine ⟨leads_cons.2 ⟨a, rfl, h.leads.append hleave⟩, fun layout => ?_⟩
  have hflat : flat layout (inScope s) = flat layout s := by
    simp [flat, inScope, Item.chars, Item.isLayout, Item.endsLine, Content.text]
  rw [hflat]
  exact h.spells layout

/-! ## Closed scripts -/

namespace Closed

theorem nil (a : Spot) : Closed ends Q a [] a :=
  fun o => ⟨leads_nil.2 rfl, fun _ => (Passes.nil ⟨.code, o⟩).spells⟩

theorem append (hs : Closed ends Q a s b) (ht : Closed ends Q b t c) : Closed ends Q a (s ++ t) c :=
  fun o => (hs o).append (ht o)

theorem flatMap {α : Type} {f : α → Script} {as : List α} (h : ∀ x ∈ as, Closed ends Q a (f x) a) :
    Closed ends Q a (as.flatMap f) a := by
  induction as with
  | nil => exact nil a
  | cons x as ih =>
    obtain ⟨hx, has⟩ := List.forall_mem_cons.1 h
    rw [List.flatMap_cons]
    exact hx.append (ih has)

theorem code (h : Fits a [] text.toList []) : Closed ends Q a (code text) .inside :=
  fun o => nests_code h.1 (h.2.inside o).spells

theorem fixed (h : Fits .inside [] cs []) :
    Closed ends Q .inside (Script.code (String.ofList cs)) .inside :=
  nests_fixed [] [] h

theorem start (h : Fits .fresh [] cs []) (a : Spot) :
    Closed ends Q a (Script.code (String.ofList cs)) .inside :=
  nests_start [] [] h a

theorem use (name : String) (h : Word text) (a : Spot) : Closed ends Q a (use name text) .inside :=
  fun o => nests_text rfl rfl rfl (h.fits a o).1 (h.fits a o).2.spells

theorem bind (owner : Owner) (h : Word text) (a : Spot) :
    Closed ends Q a (bind text owner) .inside :=
  fun o => nests_text rfl rfl rfl (h.fits a o).1 (h.fits a o).2.spells

theorem lineEnd : Closed ends Q .inside lineEnd .fresh := fun o => ⟨rfl, fun _ => spells_lineFeed o⟩

theorem line (h : Fits .fresh [] text.toList []) : Closed ends Q .fresh (line text) .fresh :=
  (code h).append lineEnd

theorem fixedLine (h : Fits .fresh [] cs []) :
    Closed ends Q .fresh (Script.line (String.ofList cs)) .fresh :=
  line (fits_fixed h)

theorem codeLines {texts : List String} (h : ∀ t ∈ texts, Fits .fresh [] t.toList []) :
    Closed ends Q .fresh (codeLines texts) .fresh :=
  flatMap fun t ht => line (h t ht)

/-- A comment, which is left out with the layout. -/
theorem comment (h : ∀ c ∈ text.toList, isLineTerminator c = false) :
    Closed ends Q .fresh (comment text) .fresh := by
  intro o
  have hshown : (isInline ("// " ++ text) && ['/', '/'].isPrefixOf ("// " ++ text).toList) = true := by
    have hbreak : '\n' ∉ text.toList := fun hmem => absurd (h '\n' hmem) (by decide)
    simpa [isInline, areInline, String.toList_append] using hbreak
  refine ⟨leads_singleton.2 (if_pos hshown), fun layout => ?_⟩
  cases layout with
  | false => exact (Passes.nil ⟨.code, o⟩).spells
  | true =>
    have hslashes : Passes ⟨.code, []⟩ ['/', '/', ' '] ⟨.comment, []⟩ := by decide
    have hflat : flat true (Script.comment text) = ['/', '/', ' '] ++ text.toList ++ ['\n'] := by
      simp [flat, Script.comment, Item.chars, Item.isLayout, Item.endsLine, Content.text]
    rw [hflat]
    exact spells_comment ((hslashes.inside o).append (.of_comment h o))

theorem fixedComment (h : cs.any isLineTerminator = false) :
    Closed ends Q .fresh (Script.comment (String.ofList cs)) .fresh :=
  comment (by rwa [String.toList_ofList, bare_iff])

theorem indented (h : Closed ends Q a s b) : Closed ends Q a (indented s) b :=
  fun o => nests_map (f := fun i => { i with indent := i.indent + 1 }) (fun _ => rfl) (h o)

theorem inScope (h : Closed ends Q a s b) : Closed ends Q a (inScope s) b :=
  fun o => nests_inScope (h o)

theorem comingFrom (p : Position) (h : Closed ends Q a s b) : Closed ends Q a (comingFrom p s) b :=
  fun o => nests_map (f := fun i => { i with origin := i.origin.or (some p) }) (fun _ => rfl) (h o)

theorem commaSeparated {ss : List Script} (h : ∀ s ∈ ss, Closed ends Q .inside s .inside) :
    Closed ends Q .inside (commaSeparated ss) .inside :=
  commaSeparated_induction (nil _) (fixed (by decide)) append h

/-- A script between a text that opens brackets and one that closes them and may open others. -/
theorem nests_between (h : Closed ends Q .inside s .inside) (o : List Char)
    (hopening : Fits .fresh [] cs o) (q : List Char) (hclosing : Fits .inside o ds q) (a : Spot)
    (p : List Char) :
    Nests ends Q a p (between (String.ofList cs) (String.ofList ds) s) .inside (q ++ p) :=
  ((nests_start [] o hopening a p).append (h _)).append (nests_fixed o q hclosing p)

theorem between (h : Closed ends Q .inside s .inside) (o : List Char)
    (hopening : Fits .fresh [] cs o) (hclosing : Fits .inside o ds []) (a : Spot) :
    Closed ends Q a (between (String.ofList cs) (String.ofList ds) s) .inside :=
  h.nests_between o hopening [] hclosing a

theorem constant (hs : Closed ends Q .inside s .inside)
    (hname : (openLine cs && cs.all isPlain) = true) (hafter : Fits .inside [] ds []) :
    Closed ends Q .fresh (constant (String.ofList cs) s (String.ofList ds)) .fresh :=
  (((((start (by decide) _).append (bind .pattern (.fixed hname) _)).append
    (fixed (by decide))).append hs).append (fixed hafter)).append lineEnd

theorem pathTo (hs : Closed ends Q .inside s .inside) (ht : Closed ends Q .inside t .inside)
    (hstep : cs.all isPlain = true) :
    Closed ends Q .fresh (pathTo (String.ofList cs) s t) .fresh := by
  intro o
  have hopening : Fits .fresh [] ("ctx." ++ String.ofList cs ++ "(").toList [')'] :=
    fits_append (fits_append (fits_fixed (by decide))
      (turns_fixed (.of_plain (List.all_eq_true.1 hstep) []))) (turns_fixed (by decide))
  exact (((((nests_code hopening.1 (hopening.2.inside o).spells).append (hs _)).append
    (fixed (by decide) _)).append (ht _)).append
    (nests_fixed [')'] [] (by decide) o)).append (lineEnd o)

/-- A body and the line that closes it. -/
theorem nests_braced {body : Script} (h : Closed ends Q .fresh body .fresh) (o q : List Char)
    (hclose : Fits .fresh o cs q) (p : List Char) :
    Nests ends Q .fresh (o ++ p) (braced (String.ofList cs) body) .fresh (q ++ p) :=
  (h.indented.inScope _).append ((nests_start o q hclose _ p).append (lineEnd _))

theorem block {body : Script} (h : Closed ends Q .fresh body .fresh) :
    Closed ends Q .inside (block body) .fresh := by
  intro o
  rw [block_eq]
  exact (nests_fixed [] ['}'] (by decide) o).append ((lineEnd _).append
    (h.nests_braced ['}'] [] (by decide) o))

theorem commandBlock {body : Script} (h : Closed ends Q .fresh body .fresh) :
    Closed ends Q .fresh (commandBlock body) .fresh := by
  intro o
  rw [commandBlock_eq]
  exact ((nests_start [] ['}'] (by decide) _ o).append (lineEnd _)).append
    (h.nests_braced ['}'] [] (by decide) o)

theorem polygonLoop : Closed ends Q .fresh polygonLoop .fresh := by
  intro o
  have hcorner : Closed ends Q .fresh
      (Script.constant "angle" (Script.code "(i * TWO_PI / sides) + (rotation || 0)") ";" ++
      Script.constant "px" (Script.code "x + Math.cos(angle) * radius") ";" ++
      Script.constant "py" (Script.code "y + Math.sin(angle) * radius") ";" ++
      Script.codeLines ["if (i === 0) ctx.moveTo(px, py);", "else ctx.lineTo(px, py);"])
      .fresh :=
    (((constant (fixed (by decide)) (by decide) (by decide)).append
      (constant (fixed (by decide)) (by decide) (by decide))).append
      (constant (fixed (by decide)) (by decide) (by decide))).append (codeLines (by decide))
  exact nests_inScope ((((((nests_start [] [')'] (by decide) _ o).append
    (bind .pattern (.fixed (by decide)) _ _)).append
    (nests_fixed [')'] ['}'] (by decide) o)).append (lineEnd _)).append
    (hcorner.indented.inScope _)).append
    ((nests_start ['}'] [] (by decide) _ o).append (lineEnd o)))

/-- A drawing function with its call. -/
theorem drawing {outer names : List String} (hnames : names ⊆ drawingLocals)
    (h : Closed ends Q .fresh s .fresh) (a : Spot) :
    Closed ends Q a (drawing outer names s) .inside := by
  intro o
  have hlocal {n : String} (hn : n ∈ names) : Word n := by
    have hn := hnames hn
    fin_cases hn <;> exact .fixed (by decide)
  have hparams : Closed ends Q .inside
      (Script.commaSeparated (names.map fun n => Script.bind (captureName n) .pattern)) .inside :=
    commaSeparated (List.forall_mem_map.2 fun n hn => bind .pattern (hlocal hn).capture _)
  have hargs : Closed ends Q .inside
      (Script.between "(" ")" (Script.commaSeparated (names.map (reading outer)))) .inside :=
    between (commaSeparated (List.forall_mem_map.2 fun n hn => use n ((hlocal hn).spell outer) _))
      [')'] (by decide) (by decide) _
  have hbody : Closed ends Q .fresh
      (Script.line "ctx.save();" ++ s ++ Script.line "ctx.restore();") .fresh :=
    ((fixedLine (by decide)).append h).append (fixedLine (by decide))
  exact (nests_inScope (((((nests_start [] [')', ')'] (by decide) a o).append
    (hparams _)).append (nests_fixed [')', ')'] ['}', ')'] (by decide) o)).append
    (lineEnd _)).append (hbody.indented _) |>.append
    (nests_start ['}', ')'] [] (by decide) _ o))).append (hargs o)

end Closed

end Script

open Script

variable {ends : LineEnds} {Q : Char → Prop}

/-! ## Tokens of a source -/

/-- A token as it stands in a source, and the characters of a string are allowed. -/
structure Token.Allowed (Q : Char → Prop) (t : Token) : Prop where
  genuine : t.Genuine
  chars : t.kind = .string → ∀ c ∈ t.lexeme.toList, Q c

theorem IsName.word {s : String} (h : IsName s) : Word s := by
  refine ⟨h.opensLine, ?_⟩
  obtain ⟨rest, h⟩ := h
  obtain ⟨c, cs, htext, hc, hcs, -⟩ := h.word_of_kind rfl
  have htext : s.toList = c :: cs := htext
  have hword : ∀ d ∈ c :: cs, Token.isWordChar d = true := by
    refine List.forall_mem_cons.2 ⟨?_, hcs⟩
    rw [Bool.or_eq_true] at hc
    rcases hc with hc | hc <;> simp [Token.isWordChar, hc]
  rw [htext]
  exact fun d hd => isPlain_of_class (p := Token.isWordChar) (by decide +kernel) (hword d hd)

theorem TextFrom.word {s : String} (h : TextFrom (Token.Allowed Q) .identifier s) : Word s := by
  obtain ⟨t, ht, hk, rfl⟩ := h
  exact (ht.genuine.isName hk).word

theorem IsColor.plain {s : String} (h : IsColor s) : ∀ c ∈ s.toList, isPlain c = true := by
  obtain ⟨rest, h⟩ := h
  obtain ⟨c, cs, htext, hcs⟩ := h.color_of_kind rfl
  have htext : s.toList = '#' :: c :: cs := htext
  rw [htext]
  refine List.forall_mem_cons.2 ⟨by decide, fun d hd => ?_⟩
  exact isPlain_of_class (p := Token.isColorChar) (by decide +kernel) (hcs d hd)

theorem isPlain_of_isDecimalChar {c : Char} (h : isDecimalChar c = true) : isPlain c = true :=
  isPlain_of_class (p := isDecimalChar) (by decide) h

theorem plain_toString (n : Nat) : ∀ c ∈ (toString n).toList, isPlain c = true := by
  rw [Nat.toString_eq_repr, Nat.toList_repr]
  exact fun c hc => isPlain_of_isDecimalChar (isDecimalChar_of_mem_toDigits c hc)

theorem Numeral.word_text (v : Numeral) : Word v.text :=
  ⟨v.opensLine_text, fun c hc =>
    isPlain_of_isDecimalChar ((v.shortest.format_chars scriptLayout).2 c hc)⟩

/-! ## Expressions -/

/-- The script of the expression goes on with its line, ends inside a line and closes the brackets
it opens, wherever it stands. -/
def Expr.Written (ends : LineEnds) (Q : Char → Prop) (e : Expr) : Prop :=
  ∀ captured nested a, Closed ends Q a (e.script captured nested) .inside

namespace Expr

theorem written_leaf {t : Token} (ht : t.Allowed Q) {e : Expr} (he : Parser.leaf? t = some e) :
    Written ends Q e := by
  intro captured nested a
  unfold Parser.leaf? at he
  split at he <;> cases he
  case h_1 hk =>
    intro o
    have hvalue := ht.genuine.isStringValue hk
    have hliteral : ("\"" ++ escapeQuotes t.lexeme ++ "\"").toList = literalOf t.lexeme := by
      simp [literalOf]
    have hopens : opensLine ("\"" ++ escapeQuotes t.lexeme ++ "\"") = true :=
      opensLine_append (opensLine_append (opensLine_ofList (by decide)) hvalue.unbroken)
        (lineFeed_not_mem_ofList (by decide))
    refine nests_code (Spot.takes_of_fresh hopens a) ?_
    rw [hliteral]
    exact spells_literal hvalue (ht.chars hk) o
  case h_2 hk =>
    have hcolor : ("\"" ++ t.lexeme ++ "\"").toList = '"' :: (t.lexeme.toList ++ ['"']) := by simp
    have hturns : Turns [] ('"' :: (t.lexeme.toList ++ ['"'])) [] :=
      (Passes.of_plain_string (ht.genuine.isColor hk).plain []).quoted []
    refine .code ?_
    rw [hcolor]
    refine ⟨Spot.takes_of_fresh ?_ a, hturns⟩
    have hquote : Spot.fresh.takes ['"'] = true := by decide
    exact Spot.takes_append hquote fun hmem =>
      hturns.lineFeed_not_mem (List.mem_cons_of_mem _ hmem)
  case h_6 hk => exact .use _ ((ht.genuine.isName hk).word.spell captured) a
  all_goals exact .start (by decide) a

theorem closed_scriptOr {o : Option Expr} (h : ∀ e ∈ o.toList, Written ends Q e)
    (captured : List String) {fallback : List Char} (hfallback : Fits .fresh [] fallback []) :
    Closed ends Q .inside (scriptOr captured (String.ofList fallback) o) .inside := by
  cases o with
  | none => exact .start hfallback _
  | some e => exact h e (List.mem_singleton_self e) captured true _

end Expr

section Fields

variable {e : Expr} {captured : List String} {name : List Char}

/-- A constant for a field of a shape. -/
theorem closed_field (h : e.Written ends Q) (hname : (openLine name && name.all isPlain) = true) :
    Closed ends Q .fresh (constant (String.ofList name) (e.script captured true) ";") .fresh :=
  .constant (h captured true _) hname (by decide)

/-- A constant for an angle, which is given in degrees. -/
theorem closed_angle (h : e.Written ends Q) (hname : (openLine name && name.all isPlain) = true) :
    Closed ends Q .fresh
      (constant (String.ofList name) (e.script captured true) " * Math.PI / 180;") .fresh :=
  .constant (h captured true _) hname (by decide)

theorem Shape.closed_fontSize {o : Option Expr} (h : ∀ e ∈ o.toList, e.Written ends Q) :
    Closed ends Q .fresh (Shape.fontSize captured o) .fresh := by
  cases o with
  | none => exact .nil _
  | some e =>
    exact (closed_field (h e (List.mem_singleton_self e)) (by decide)).append
      (.fixedLine (by decide))

theorem Shape.closed_font {p : Position} {name : String} (h : (Expr.string p name).Written ends Q) :
    Closed ends Q .fresh (Script.line ("ctx.font = \"" ++ escapeQuotes name ++ "\";")) .fresh := by
  intro o
  have hliteral := h [] true .inside o
  have hbreak : '\n' ∉ flat true ((Expr.string p name).script [] true) := by
    have hinline := hliteral.leads
    rw [Expr.script, code, leads_singleton] at hinline
    intro hmem
    refine (isInline_iff.1 (Option.ite_none_right_eq_some.1 hinline).1).2 ?_
    simpa [flat, Expr.script, code, Item.chars, Item.isLayout, Item.endsLine, Content.text]
      using hmem
  have hbefore : Fits .fresh [] "ctx.font = ".toList [] := fits_fixed (by decide)
  have hafter : Turns [] ";".toList [] := turns_fixed (by decide)
  have htext : ("ctx.font = \"" ++ escapeQuotes name ++ "\";").toList =
      "ctx.font = ".toList ++ flat true ((Expr.string p name).script [] true) ++ ";".toList := by
    simp [flat, Expr.script, code, Item.chars, Item.isLayout, Item.endsLine, Content.text]
  refine (nests_code ?_ ?_).append (Closed.lineEnd o)
  · rw [htext]
    exact Spot.takes_append (Spot.takes_append hbefore.1 hbreak) hafter.lineFeed_not_mem
  · rw [htext]
    exact ((hbefore.2.inside o).spells.append (hliteral.spells true)).append
      (hafter.inside o).spells

theorem Shape.closed_align (align : String) :
    Closed ends Q .fresh (if align.isEmpty then []
      else Script.line ("ctx.textAlign = " ++ Text.quote align ++ ";")) .fresh := by
  split
  · exact .nil _
  · exact .line (fits_append (fits_append (fits_fixed (by decide))
      (passes_quote align [])) (turns_fixed (by decide)))

theorem Shape.closed_text {x y content color : Expr} {font : Option (Position × String)}
    {size : Option Expr} (align : String) (hx : x.Written ends Q) (hy : y.Written ends Q)
    (hcontent : content.Written ends Q) (hcolor : color.Written ends Q)
    (hfont : ∀ f ∈ font, (Expr.string f.1 f.2).Written ends Q)
    (hsize : ∀ e ∈ size.toList, e.Written ends Q) :
    Closed ends Q .fresh ((Shape.text x y content color font size align).body captured) .fresh := by
  have hfields : Closed ends Q .fresh (constant "x" (x.script captured true) ";" ++
      constant "y" (y.script captured true) ";" ++
      constant "text" (content.script captured true) ";" ++
      constant "color" (color.script captured true) ";") .fresh :=
    (((closed_field hx (by decide)).append (closed_field hy (by decide))).append
      (closed_field hcontent (by decide))).append (closed_field hcolor (by decide))
  have hfill : Closed ends Q .fresh (Script.line "ctx.fillStyle = color;") .fresh :=
    .fixedLine (by decide)
  have hdraw : Closed ends Q .fresh (Script.line "ctx.fillText(String(text), x, y);") .fresh :=
    .fixedLine (by decide)
  cases font with
  | none =>
    rw [Shape.body]
    exact ((((hfields.append (.nil _)).append (closed_fontSize hsize)).append hfill).append
      (closed_align align)).append hdraw
  | some f =>
    rw [Shape.body]
    exact ((((hfields.append (closed_font (hfont f rfl))).append (closed_fontSize hsize)).append
      hfill).append (closed_align align)).append hdraw

theorem Shape.closed_body {s : Shape} (h : ∀ f ∈ s.fields, f.Written ends Q)
    (hfont : ∀ f ∈ s.font, (Expr.string f.1 f.2).Written ends Q) :
    Closed ends Q .fresh (s.body captured) .fresh := by
  cases s <;> simp only [fields, List.forall_mem_append, List.forall_mem_cons, List.not_mem_nil,
    false_implies, implies_true, and_true] at h
  case text align =>
    obtain ⟨⟨hx, hy, hcontent, hcolor⟩, hsize⟩ := h
    exact closed_text align hx hy hcontent hcolor hfont hsize
  all_goals rw [Shape.body]
  case circle =>
    obtain ⟨hx, hy, hsize, hcolor⟩ := h
    exact ((((closed_field hx (by decide)).append (closed_field hy (by decide))).append
      (closed_field hsize (by decide))).append
      (closed_field hcolor (by decide))).append (.codeLines (by decide))
  case rect =>
    obtain ⟨hx, hy, hwidth, hheight, hcolor⟩ := h
    exact (((((closed_field hx (by decide)).append (closed_field hy (by decide))).append
      (closed_field hwidth (by decide))).append
      (closed_field hheight (by decide))).append
      (closed_field hcolor (by decide))).append (.codeLines (by decide))
  case line =>
    obtain ⟨hx₁, hy₁, hx₂, hy₂, hcolor⟩ := h
    exact ((((closed_field hcolor (by decide)).append
      (.codeLines (by decide))).append
      (.pathTo (hx₁ _ _ _) (hy₁ _ _ _) (by decide))).append
      (.pathTo (hx₂ _ _ _) (hy₂ _ _ _) (by decide))).append
      (.fixedLine (by decide))
  case triangle =>
    obtain ⟨hx₁, hy₁, hx₂, hy₂, hx₃, hy₃, hcolor⟩ := h
    exact (((((closed_field hcolor (by decide)).append
      (.codeLines (by decide))).append
      (.pathTo (hx₁ _ _ _) (hy₁ _ _ _) (by decide))).append
      (.pathTo (hx₂ _ _ _) (hy₂ _ _ _) (by decide))).append
      (.pathTo (hx₃ _ _ _) (hy₃ _ _ _) (by decide))).append
      (.codeLines (by decide))
  case polygon =>
    obtain ⟨⟨hx, hy, hsides, hradius, hcolor⟩, hrotation⟩ := h
    have hturn : Closed ends Q .inside (Expr.scriptOr captured "0" _) .inside :=
      Expr.closed_scriptOr hrotation captured (by decide)
    exact ((((((((closed_field hx (by decide)).append
      (closed_field hy (by decide))).append
      (closed_field hsides (by decide))).append
      (closed_field hradius (by decide))).append
      (closed_field hcolor (by decide))).append
      (.constant hturn (by decide) (by decide))).append
      (.codeLines (by decide))).append .polygonLoop).append
      (.codeLines (by decide))
  case ellipse =>
    obtain ⟨hx, hy, hradiusX, hradiusY, hcolor⟩ := h
    exact (((((closed_field hx (by decide)).append (closed_field hy (by decide))).append
      (closed_field hradiusX (by decide))).append
      (closed_field hradiusY (by decide))).append
      (closed_field hcolor (by decide))).append (.codeLines (by decide))
  case arc counterclockwise =>
    obtain ⟨hx, hy, hradius, hstart, hend, hcolor⟩ := h
    exact ((((((closed_field hx (by decide)).append
      (closed_field hy (by decide))).append
      (closed_field hradius (by decide))).append
      (closed_angle hstart (by decide))).append
      (closed_angle hend (by decide))).append
      (closed_field hcolor (by decide))).append (.codeLines (by cases counterclockwise <;> decide))

end Fields

theorem Expr.hereditary_written :
    Expr.Hereditary (Token.Allowed Q) (Expr.Written ends Q) where
  leaf := Expr.written_leaf
  number _ v _ _ a := .code (v.word_text.fits a [])
  array _ es h captured _ a := by
    rw [Expr.script, Expr.scripts_eq_map]
    exact .between (.commaSeparated (List.forall_mem_map.2 fun e he => h e he captured true _))
      [']'] (by decide) (by decide) a
  object _ ps h captured _ a := by
    rw [Expr.script, Expr.propertyScripts_eq_map]
    refine .between (.commaSeparated (List.forall_mem_map.2 fun q hq => ?_)) ['}']
      (by decide) (by decide) a
    exact (Closed.code (fits_append (fits_quote q.1) (turns_fixed (by decide)))).append
      (h q hq captured true _)
  negate _ e h captured _ a := by
    rw [Expr.script]
    split
    · exact .between (h captured true _) [')'] (by decide) (by decide) a
    · exact (Closed.start (by decide) a).append (h captured true _)
  binary _ op l r hl hr captured _ a := by
    have hop : Fits .inside [] (" " ++ op.spelling ++ " ").toList [] := by cases op <;> decide
    exact .between (((hl captured true _).append (.code hop)).append (hr captured true _)) [')']
      (by decide) (by decide) a
  assign _ ht hv captured nested a := by
    have hassign (a : Spot) := ((ht captured true a).append
      (.fixed (show Fits .inside [] [' ', '=', ' '] [] by decide))).append (hv captured false _)
    cases nested with
    | false => exact hassign a
    | true => exact .between (hassign _) [')'] (by decide) (by decide) a
  call hc hargs captured _ a := by
    rw [Expr.script, Expr.scripts_eq_map]
    exact (hc captured true a).append (.between
      (.commaSeparated (List.forall_mem_map.2 fun e he => hargs e he captured true _)) [')']
      (by decide) (by decide) _)
  member hb hp captured _ a :=
    (hb captured true a).append (.code (fits_append (fits_fixed (by decide))
      (.of_plain hp.textFrom.word.plain [])))
  index hb hk captured _ a :=
    (hb captured true a).append
      (.between (hk captured true _) [']'] (by decide) (by decide) _)
  shape _ s h hfont _ _ a :=
    .drawing s.captured_subset (Shape.closed_body (fun f hf => h f (s.fields_subset hf)) hfont) a

/-! ## Animation commands -/

theorem Script.closed_update {field op : List Char} {value : Expr}
    (hfield : field.all isPlain = true) (hop : op.all isPlain = true)
    (h : value.Written ends Q) :
    Closed ends Q .fresh (update (String.ofList field) (String.ofList op) value) .fresh := by
  have hopening : Fits .fresh []
      ("animationState." ++ String.ofList field ++ " " ++ String.ofList op ++ " ").toList [] :=
    fits_append (fits_append (fits_append (fits_append (fits_fixed (by decide))
      (turns_fixed (.of_plain (List.all_eq_true.1 hfield) []))) (turns_fixed (by decide)))
      (turns_fixed (.of_plain (List.all_eq_true.1 hop) []))) (turns_fixed (by decide))
  exact (((Closed.code hopening).append (h [] true _)).append (.fixed (by decide))).append
    .lineEnd

/-- A line that starts with a text around one argument and ends with another argument. -/
theorem Script.closed_product {before s t : Script} {opening closing : List Char}
    (hbefore : Closed ends Q .fresh before .fresh) (o : List Char)
    (hopening : Fits .fresh [] opening o) (hclosing : Fits .inside o closing [])
    (hs : Closed ends Q .inside s .inside) (ht : Closed ends Q .inside t .inside) :
    Closed ends Q .fresh (before ++ between (String.ofList opening) (String.ofList closing) s ++
      t ++ code ";" ++ lineEnd) .fresh :=
  (((hbefore.append (hs.between o hopening hclosing _)).append ht).append
    (.fixed (by decide))).append .lineEnd

theorem Motion.closed_script {m : Motion} (h : ∀ e ∈ m.arguments, e.Written ends Q) :
    Closed ends Q .fresh m.script .fresh := by
  have harg {e : Expr} (he : e.Written ends Q) : Closed ends Q .inside e.argument .inside :=
    he [] true _
  cases m <;> simp only [arguments, List.forall_mem_append, List.forall_mem_cons, List.not_mem_nil,
    false_implies, implies_true, and_true] at h
  case move direction =>
    cases direction <;> exact closed_update (by decide) (by decide) h
  case rotate | scale | fade => exact closed_update (by decide) (by decide) h
  case bounce =>
    have hheight : Closed ends Q .inside (Expr.scriptOr [] "100" _) .inside :=
      Expr.closed_scriptOr h [] (by decide)
    exact ((Closed.fixedComment (by decide)).append
      (hheight.between [] (by decide) (by decide) _)).append .lineEnd
  case wave =>
    exact closed_product (.nil _) [')'] (by decide) (by decide) (harg h.2) (harg h.1)
  case orbit =>
    obtain ⟨hx, hy, hradius, hspeed⟩ := h
    have hangle : Closed ends Q .inside (code "time() * " ++ _) .inside :=
      (Closed.fixed (by decide)).append (harg hspeed)
    exact .commandBlock (closed_product (closed_product
      (.constant hangle (by decide) (by decide)) [] (by decide)
      (by decide) (harg hx) (harg hradius)) [] (by decide) (by decide)
      (harg hy) (harg hradius))
  case pulse minScale _ _ =>
    obtain ⟨⟨hmin, hmax⟩, hspeed⟩ := h
    have hrate : Closed ends Q .inside (Expr.scriptOr [] "1" _) .inside :=
      Expr.closed_scriptOr hspeed [] (by decide)
    have hvalue : Closed ends Q .inside (between "(Math.sin(time() * " ") + 1) / 2" _) .inside :=
      hrate.between [')', ')'] (by decide) (by decide) _
    -- the bracket around the difference is opened behind one argument and closed behind another
    refine .commandBlock fun o => ?_
    have hconstant : Nests ends Q .fresh o (constant "pulseValue" _ ";") .fresh o :=
      Closed.constant hvalue (by decide) (by decide) o
    have hrange : Nests ends Q .inside ([')'] ++ o)
        (between " - " ") * pulseValue;" minScale.argument) .inside o :=
      ((nests_fixed [')'] [')'] (by decide) o).append (harg hmin _)).append
        (nests_fixed [')'] [] (by decide) o)
    exact (((hconstant.append ((harg hmin).nests_between [] (by decide) [')']
      (by decide) _ o)).append (harg hmax _)).append hrange).append (Closed.lineEnd o)
  case wobble =>
    have hspeed : Closed ends Q .inside (Expr.scriptOr [] "5" _) .inside :=
      Expr.closed_scriptOr h.2 [] (by decide)
    exact closed_product (.nil _) [')'] (by decide) (by decide) hspeed (harg h.1)
  case spring targetX targetY stiffness damping =>
    obtain ⟨⟨hx, hy⟩, hstiffness, hdamping⟩ := h
    have hstiff : Closed ends Q .inside (Expr.scriptOr [] "0.1" _) .inside :=
      Expr.closed_scriptOr hstiffness [] (by decide)
    have hspring {rate : Script} (hrate : Closed ends Q .inside rate .inside) :
        Closed ends Q .fresh (Script.comment "Spring animation" ++ commandBlock
          (constant "springStiffness" rate ";" ++
            constant "dx" targetX.argument " - animationState.x;" ++
            constant "dy" targetY.argument " - animationState.y;" ++
            codeLines ["animationState.x += dx * springStiffness;",
              "animationState.y += dy * springStiffness;"])) .fresh :=
      (Closed.fixedComment (by decide)).append (.commandBlock
        ((((Closed.constant hrate (by decide) (by decide)).append
          (.constant (harg hx) (by decide) (by decide))).append
          (.constant (harg hy) (by decide) (by decide))).append (.codeLines (by decide))))
    cases damping with
    | none => exact hspring (hstiff.append (.nil _))
    | some e =>
      have htimes : Closed ends Q .inside (code " * " ++ e.argument) .inside :=
        (Closed.fixed (by decide)).append (harg (hdamping e (List.mem_singleton_self e)))
      exact hspring (hstiff.append htimes)

theorem Command.closed_script {c : Command} (h : c.From (Token.Allowed Q) (Expr.Written ends Q)) :
    Closed ends Q .fresh c.script .fresh :=
  .comingFrom c.position (Motion.closed_script h.arguments)

/-! ## Statements -/

namespace Script.Names

theorem word_sceneName (names : Names) {scene : String} (h : Word scene) :
    Word (names.sceneName scene) := by
  have hbase : Word ("scene_" ++ scene) := (Word.fixed (by decide)).append h.plain
  rcases names.sceneName_cases scene with h | ⟨n, h⟩
  · rw [h]
    exact hbase
  · rw [h]
    exact hbase.append (plain_toString n)

theorem word_animationName (names : Names) : Word names.animationName := by
  have hbase : Word "animate" := .fixed (by decide)
  rcases names.animationName_cases with h | ⟨n, h⟩
  · rw [h]
    exact hbase
  · rw [h]
    exact hbase.append (plain_toString n)

end Script.Names

theorem Binding.closed_script {b : Binding} (h : b.From (Token.Allowed Q) (Expr.Written ends Q))
    (a : Spot) : Closed ends Q a b.script .inside :=
  (((Closed.start (by decide) a).append (.bind .program h.name.textFrom.word _)).append
    (.fixed (by decide))).append (h.value [] false _)

theorem closed_params {params : List Ident} (h : ∀ id ∈ params, Word id.name) :
    Closed ends Q .inside
      (between "(" ")" (commaSeparated (params.map fun p => bind p.name .program))) .inside :=
  .between (.commaSeparated (List.forall_mem_map.2 fun id hid => .bind .program (h id hid) _))
    [')'] (by decide) (by decide) _

theorem Init.closed_scriptOf {init : Option Init}
    (h : ∀ i ∈ init, i.From (Token.Allowed Q) (Expr.Written ends Q)) :
    Closed ends Q .inside (Init.scriptOf init) .inside := by
  cases init with
  | none => exact .nil _
  | some i =>
    cases h i rfl with
    | binding hb => exact Binding.closed_script hb _
    | expr he => exact he [] false _

theorem Expr.closed_scriptOf {update : Option Expr} (h : ∀ e ∈ update.toList, e.Written ends Q) :
    Closed ends Q .inside (Expr.scriptOf update) .inside := by
  cases update with
  | none => exact .nil _
  | some e => exact h e (List.mem_singleton_self e) [] false _

theorem bare_intercalate {names : List Ident} (h : ∀ id ∈ names, Word id.name) :
    ∀ c ∈ (String.intercalate ", " (names.map Ident.name)).toList, isLineTerminator c = false := by
  induction names with
  | nil => exact bare_iff.2 (by decide)
  | cons id names ih =>
    obtain ⟨hid, hnames⟩ := List.forall_mem_cons.1 h
    have hname : ∀ c ∈ id.name.toList, isLineTerminator c = false :=
      fun c hc => bare_of_isPlain (hid.plain c hc)
    cases names with
    | nil => exact hname
    | cons id' names =>
      rw [List.map_cons, List.map_cons, String.intercalate_cons_cons, String.toList_append,
        String.toList_append]
      exact List.forall_mem_append.2 ⟨List.forall_mem_append.2
        ⟨hname, bare_iff.2 (by decide)⟩, ih hnames⟩

theorem closed_importComment {names : List Ident} (h : ∀ id ∈ names, Word id.name)
    (path : String) : Closed ends Q .fresh (importComment names path) .fresh := by
  have hpath := (passes_quote path []).bare
  cases names with
  | nil =>
    refine .comment ?_
    rw [String.toList_append]
    exact List.forall_mem_append.2 ⟨bare_iff.2 (by decide), hpath⟩
  | cons id names =>
    refine .comment ?_
    rw [String.toList_append, String.toList_append, String.toList_append]
    have hwords : ∀ c ∈ "import ".toList, isLineTerminator c = false := bare_iff.2 (by decide)
    have hfrom : ∀ c ∈ " from ".toList, isLineTerminator c = false := bare_iff.2 (by decide)
    exact List.forall_mem_append.2 ⟨List.forall_mem_append.2
      ⟨List.forall_mem_append.2 ⟨hwords, bare_intercalate h⟩, hfrom⟩, hpath⟩

/-- A call without arguments, on a line of its own. -/
theorem closed_callLine {name : String} (hname : Word name) :
    Closed ends Q .fresh (line (name ++ "();")) .fresh :=
  .line (fits_append (hname.fits _ []) (turns_fixed (by decide)))

theorem closed_animateScript {name : String} (hname : Word name) {commands : List Command}
    (h : ∀ c ∈ commands, c.From (Token.Allowed Q) (Expr.Written ends Q)) :
    Closed ends Q .fresh (animateScript name commands) .fresh := by
  intro o
  have hbody : Closed ends Q .fresh (animateBody name commands) .fresh :=
    (Closed.fixedLine (by decide)).append
      ((Closed.flatMap fun c hc => Command.closed_script (h c hc)).append
        (.line (fits_append (fits_append
          (fits_fixed (show Fits .fresh [] _ [')'] by decide)) (.of_plain hname.plain _))
          (turns_fixed (by decide)))))
  rw [animateScript_eq]
  exact (Closed.fixedComment (by decide) o).append ((Closed.start (by decide) _ o).append
    ((Closed.bind .pattern hname _ o).append ((nests_fixed [] ['}'] (by decide) o).append
      ((Closed.lineEnd _).append ((hbody.nests_braced ['}'] [] (by decide) o).append
        (closed_callLine hname o))))))

namespace Stmt

theorem closed_scripts {ss : List Stmt}
    (h : ∀ s ∈ ss, ∀ names, Closed ends Q .fresh (s.script names).2 .fresh) (names : Names) :
    Closed ends Q .fresh (Stmt.scripts names ss).2 .fresh := by
  induction ss generalizing names with
  | nil => exact .nil _
  | cons s ss ih =>
    obtain ⟨hs, hss⟩ := List.forall_mem_cons.1 h
    rw [Stmt.scripts]
    exact (Closed.comingFrom s.position (hs names)).append (ih hss _)

/-- A statement that is read from a source is written in whole lines, and closes the brackets it
opens. -/
theorem closed_script {s : Stmt} (h : s.From (Token.Allowed Q) (Expr.Written ends Q))
    (names : Names) : Closed ends Q .fresh (s.script names).2 .fresh := by
  induction h generalizing names with
  | binding h =>
    rw [Stmt.script]
    exact ((Binding.closed_script h _).append (.fixed (by decide))).append .lineEnd
  | function _ hname hparams _ ih =>
    rw [Stmt.script]
    exact ((Closed.start (by decide) _).append
      (.bind .program hname.textFrom.word _)).append
        (.inScope ((closed_params fun id hid => (hparams id hid).textFrom.word).append
          (.block (closed_scripts ih _))))
  | @ret _ value _ hvalue =>
    cases value with
    | none =>
      rw [Stmt.script]
      exact .fixedLine (by decide)
    | some e =>
      rw [Stmt.script]
      exact (Closed.between (hvalue e (List.mem_singleton_self e) [] false _) []
        (by decide) (by decide) _).append .lineEnd
  | ifThen _ hcond _ ih | whileLoop _ hcond _ ih =>
    rw [Stmt.script]
    exact (Closed.between (hcond [] true _) [')'] (by decide) (by decide) _).append
      (.block (closed_scripts ih _))
  | ifElse _ hcond _ _ ih ih' =>
    intro o
    rw [script_ifElse_eq]
    have hcond : Closed ends Q .inside _ .inside := hcond [] true _
    exact (hcond.nests_between [')'] (by decide) ['}'] (by decide) _ o).append
      ((Closed.lineEnd _).append
        (((closed_scripts ih _).nests_braced ['}'] ['}'] (by decide) o).append
          ((closed_scripts ih' _).nests_braced ['}'] [] (by decide) o)))
  | repeatLoop _ htimes _ ih =>
    intro o
    rw [Stmt.script]
    exact nests_inScope ((((((nests_start [] [')'] (by decide) _ o).append
      (Closed.bind .pattern (.fixed (by decide)) _ _)).append (Closed.fixed (by decide) _)).append
      (htimes [] true _ _)).append (nests_fixed [')'] [] (by decide) o)).append
      (Closed.block (closed_scripts ih _) o))
  | forLoop _ hinit hcond hupdate _ ih =>
    intro o
    rw [Stmt.script]
    have hclose : Nests ends Q .inside ([')'] ++ o) (between "; " ")" (Expr.scriptOf _)) .inside o :=
      ((nests_fixed [')'] [')'] (by decide) o).append
        (Expr.closed_scriptOf hupdate _)).append (nests_fixed [')'] [] (by decide) o)
    exact nests_inScope ((((((Init.closed_scriptOf hinit).nests_between [')'] (by decide)
      [')'] (by decide) _ o).append (hcond [] true _ _)).append hclose)).append
      (Closed.block (closed_scripts ih _) o))
  | importFrom _ hnames _ =>
    rw [Stmt.script]
    exact closed_importComment (fun id hid => (hnames id hid).textFrom.word) _
  | @scene _ name _ _ hname _ ih =>
    have hfunction := names.word_sceneName hname.word
    have htitle : Closed ends Q .fresh (Script.comment ("Scene: " ++ name)) .fresh := by
      refine .comment ?_
      rw [String.toList_append]
      exact List.forall_mem_append.2 ⟨bare_iff.2 (by decide), fun c hc =>
        bare_of_isPlain (hname.word.plain c hc)⟩
    rw [Stmt.script]
    exact ((((htitle.append (.start (by decide) _)).append
      (.bind .pattern hfunction _)).append (.fixed (by decide))).append
      (.block (closed_scripts ih _))).append (closed_callLine hfunction)
  | animate _ hcommands =>
    rw [Stmt.script]
    exact closed_animateScript names.word_animationName hcommands
  | expr h =>
    rw [Stmt.script]
    exact ((h [] false _).append (.fixed (by decide))).append .lineEnd

end Stmt

/-- A program that is read from a source is written in whole lines, and closes the brackets it
opens.  Of the characters that may end a line, it has those of its strings only. -/
theorem closed_parse (ends : LineEnds) {source : String}
    (h : ∀ t ∈ Token.lex source, t.kind = .string → ∀ c ∈ t.lexeme.toList, Q c) :
    Closed ends Q .fresh (Stmt.scripts {} (parse (Token.lex source)).1).2 .fresh := by
  have hwritten : Expr.Hereditary (Token.Allowed Q) (Expr.Written ends Q) := Expr.hereditary_written
  have hfrom := from_parse hwritten ⟨Token.genuine_beyond, fun hk => by cases hk⟩
    fun t ht => ⟨Token.genuine_lex source t ht, h t ht⟩
  exact Stmt.closed_scripts (fun s hs => Stmt.closed_script (hfrom s hs)) {}

end Easel
