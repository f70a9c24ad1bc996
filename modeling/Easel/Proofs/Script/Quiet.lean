import Easel.Proofs.Script.Everywhere
import Easel.Proofs.Script.Unbroken

/-!
# Expressions and commands begin no functions

No item in the script of an expression or a command has an origin of its own, and no text there is the
one that the function of a scene or an animation begins with (`Expr.quiet_script`,
`Motion.quiet_script`).
-/

namespace Easel

namespace Script

/-- No item of the script has an origin yet, and none begins a function. -/
def Quiet (s : Script) : Prop := ∀ i ∈ s, i.origin = none ∧ i.content ≠ .code "function "

variable {s s' : Script} {text : String}

@[simp] theorem quiet_nil : Quiet [] := List.forall_mem_nil _

@[simp] theorem quiet_append : Quiet (s ++ s') ↔ Quiet s ∧ Quiet s' :=
  List.forall_mem_append

@[simp] theorem quiet_code : Quiet (code text) ↔ text ≠ "function " := by simp [Quiet, code]

@[simp] theorem quiet_use (name : String) : Quiet (use name text) := by simp [Quiet, use]

@[simp] theorem quiet_bind (owner : Owner) : Quiet (bind text owner) := by simp [Quiet, bind]

@[simp] theorem quiet_comment : Quiet (comment text) := by simp [Quiet, comment]

@[simp] theorem quiet_lineEnd : Quiet lineEnd := by simp [Quiet, lineEnd]

@[simp] theorem quiet_line : Quiet (line text) ↔ text ≠ "function " := by simp [line]

@[simp] theorem quiet_inScope : Quiet (inScope s) ↔ Quiet s := by
  simp [Quiet, inScope, or_imp, forall_and]

@[simp] theorem quiet_indented : Quiet (indented s) ↔ Quiet s := List.forall_mem_map

theorem quiet_between (h : Quiet s) {opening closing : String} (ho : opening ≠ "function ")
    (hc : closing ≠ "function ") : Quiet (between opening closing s) := by
  simp [between, h, ho, hc]

theorem quiet_commaSeparated {ss : List Script} (h : ∀ s ∈ ss, Quiet s) :
    Quiet (commaSeparated ss) :=
  commaSeparated_induction quiet_nil (quiet_code.2 (by decide)) (quiet_append.2 ⟨·, ·⟩) h

theorem quiet_drawing (outer names : List String) (h : Quiet s) : Quiet (drawing outer names s) := by
  have hparams : Quiet (commaSeparated (names.map fun n => bind (captureName n) .pattern)) :=
    quiet_commaSeparated (List.forall_mem_map.2 fun n _ => quiet_bind _)
  have hreads : Quiet (commaSeparated (names.map (reading outer))) :=
    quiet_commaSeparated (List.forall_mem_map.2 fun n _ => quiet_use n)
  simp [drawing, between, h, hparams, hreads]

/-- A text that starts with another character begins no function. -/
theorem ne_function (h : text.toList.head? ≠ some 'f') : text ≠ "function " := by
  rintro rfl
  exact h rfl

end Script

open Script

theorem Shape.quiet_body_of {s : Shape} {captured : List String}
    (h : ∀ f ∈ s.fields, Quiet (f.script captured true)) : Quiet (s.body captured) := by
  cases s <;> simp only [fields, List.forall_mem_append, List.forall_mem_cons, List.not_mem_nil,
    false_implies, implies_true, and_true] at h
  case polygon rotation =>
    obtain ⟨hfields, hrotation⟩ := h
    cases rotation <;> simp_all [body, Expr.scriptOr, constant, codeLines, polygonLoop]
  case text font size align =>
    obtain ⟨hfields, hsize⟩ := h
    have hfont (name : String) : "ctx.font = \"" ++ escapeQuotes name ++ "\";" ≠ "function " :=
      ne_function (by simp)
    have hline : "ctx.textAlign = " ++ Text.quote align ++ ";" ≠ "function " :=
      ne_function (by simp)
    cases font <;> cases size <;> by_cases halign : align = "" <;>
      simp_all [body, fontSize, constant]
  case arc counterclockwise =>
    cases counterclockwise <;> simp [body, h, constant, codeLines]
  all_goals simp [body, h, constant, codeLines, pathTo]

theorem Expr.quiet_script (e : Expr) (captured : List String) (nested : Bool) :
    Quiet (e.script captured nested) := by
  induction e using Expr.parts_induction generalizing captured nested with
  | h e ih => ?_
  cases e with
  | ident | null => simp [Expr.script, reading]
  | bool p value => cases value <;> simp [Expr.script]
  | string | color => exact quiet_code.2 (ne_function (by simp))
  | number p v =>
    refine quiet_code.2 fun heq => ?_
    have hchars := (v.shortest.format_chars Numeral.scriptLayout).2 'f'
    rw [← Numeral.text, heq] at hchars
    exact absurd (hchars (by decide)) (by decide)
  | array p es =>
    rw [Expr.script, Expr.scripts_eq_map]
    refine quiet_between (quiet_commaSeparated ?_) (by decide) (by decide)
    exact List.forall_mem_map.2 fun e he => ih e he _ _
  | object p properties =>
    rw [Expr.script, Expr.propertyScripts_eq_map]
    refine quiet_between (quiet_commaSeparated (List.forall_mem_map.2 fun q hq => ?_)) (by decide)
      (by decide)
    exact quiet_append.2 ⟨quiet_code.2 (ne_function (by simp [Text.quote, Text.quoteChars])),
      ih q.2 (List.mem_map_of_mem hq) _ _⟩
  | call callee args =>
    rw [Expr.script, Expr.scripts_eq_map]
    refine quiet_append.2 ⟨ih callee List.mem_cons_self _ _,
      quiet_between (quiet_commaSeparated ?_) (by decide) (by decide)⟩
    exact List.forall_mem_map.2 fun e he => ih e (List.mem_cons_of_mem _ he) _ _
  | shape p s => exact quiet_drawing _ _ (Shape.quiet_body_of fun f hf => ih f hf _ _)
  | negate p operand =>
    have hoperand := ih operand (List.mem_singleton_self operand)
    rw [Expr.script]
    split <;> simp [between, hoperand]
  | member base property =>
    have hname : "." ++ property.name ≠ "function " := ne_function (by simp)
    simp [Expr.script, ih base (List.mem_singleton_self base), hname]
  | binary p op left right =>
    simp only [parts, children, List.forall_mem_cons] at ih
    have hop : " " ++ op.spelling ++ " " ≠ "function " := ne_function (by simp)
    simp [Expr.script, between, ih, hop]
  | index =>
    simp only [parts, children, List.forall_mem_cons] at ih
    simp [Expr.script, between, ih]
  | assign target value =>
    simp only [parts, children, List.forall_mem_cons] at ih
    rw [Expr.script]
    split <;> simp [between, ih]

theorem Motion.quiet_script (m : Motion) : Quiet m.script := by
  have hargument (e : Expr) : Quiet e.argument := e.quiet_script [] true
  have hoptional {fallback : String} (hf : fallback ≠ "function ") (o : Option Expr) :
      Quiet (Expr.scriptOr [] fallback o) := by
    cases o with
    | none => exact quiet_code.2 hf
    | some e => exact hargument e
  cases m with
  | move amount direction => cases direction <;> simp [script, update, between, hargument]
  | spring targetX targetY stiffness damping =>
    cases damping <;>
      simp [script, commandBlock, constant, codeLines, hargument, hoptional]
  | _ => simp [script, update, commandBlock, between, constant, hargument, hoptional]

end Easel
