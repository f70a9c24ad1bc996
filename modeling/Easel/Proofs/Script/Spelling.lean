import Easel.Proofs.Script.Drawing
import Easel.Proofs.Script.Pieces

/-!
# Names in the scripts of expressions

What is collected from the script of an expression is collected from its parts
(`Collects.script_of_children`), and outside its drawing functions the script declares nothing.
`Expr.Uses` says without scripts which names an expression shows, how they are spelled and which
drawing functions are around them, and `Expr.mem_occurrences_script` says that its script shows
exactly these.
-/

namespace Easel

open Script

/-! ## Expressions -/

section Steady

variable {captured : List String}

theorem Expr.steady_scriptOr_of {o : Option Expr} (fallback : String)
    (h : ∀ e ∈ o.toList, Steady (e.script captured true)) :
    Steady (Expr.scriptOr captured fallback o) := by
  cases o with
  | none => exact steady_code fallback
  | some e => exact h e (List.mem_singleton_self e)

theorem Shape.steady_fontSize_of {o : Option Expr}
    (h : ∀ e ∈ o.toList, Steady (e.script captured true)) :
    Steady (Shape.fontSize captured o) := by
  cases o with
  | none => exact steady_nil
  | some e => simp [fontSize, h e (List.mem_singleton_self e)]

theorem Shape.steady_body_of {s : Shape} (h : ∀ f ∈ s.fields, Steady (f.script captured true)) :
    Steady (s.body captured) := by
  cases s <;> simp only [fields, List.forall_mem_append, List.forall_mem_cons, List.not_mem_nil,
    false_implies, implies_true, and_true] at h
  case polygon =>
    have hrotation := Expr.steady_scriptOr_of "0" h.2
    simp [body, h.1, hrotation]
  case text x y content color font size align =>
    have hsize := Shape.steady_fontSize_of h.2
    cases font <;> by_cases halign : align = "" <;> simp [body, h.1, hsize, halign]
  all_goals simp [body, h]

theorem Expr.steady_script (e : Expr) (captured : List String) (nested : Bool) :
    Steady (e.script captured nested) := by
  induction e using Expr.parts_induction generalizing captured nested with
  | h e ih => ?_
  cases e with
  | array p es =>
    rw [Expr.script, Expr.scripts_eq_map]
    exact steady_between (steady_commaSeparated (List.forall_mem_map.2 fun e he => ih e he _ _)) _ _
  | object p properties =>
    rw [Expr.script, Expr.propertyScripts_eq_map]
    refine steady_between (steady_commaSeparated (List.forall_mem_map.2 fun q hq => ?_)) _ _
    exact (steady_code _).append (ih q.2 (List.mem_map_of_mem hq) _ _)
  | call callee args =>
    rw [Expr.script, Expr.scripts_eq_map]
    refine (ih callee List.mem_cons_self _ _).append (steady_between (steady_commaSeparated ?_) _ _)
    exact List.forall_mem_map.2 fun e he => ih e (List.mem_cons_of_mem _ he) _ _
  | shape p s => exact steady_drawing _ _ (Shape.steady_body_of fun f hf => ih f hf _ _)
  | ident | number | string | color | bool | null => simp [Expr.script, reading]
  | negate p operand =>
    have hoperand := ih operand (List.mem_singleton_self operand)
    rw [Expr.script]
    split <;> simp [hoperand]
  | member | binary | index =>
    simp only [parts, children, List.forall_mem_cons] at ih
    simp [Expr.script, ih]
  | assign target value =>
    simp only [parts, children, List.forall_mem_cons] at ih
    rw [Expr.script]
    split <;> simp [ih]

end Steady

attribute [simp] Expr.steady_script

section Names

variable (captured : List String)

@[simp] theorem Expr.steady_scriptOr (fallback : String) (o : Option Expr) :
    Steady (Expr.scriptOr captured fallback o) :=
  Expr.steady_scriptOr_of fallback fun e _ => e.steady_script captured true

@[simp] theorem Shape.steady_fontSize (o : Option Expr) : Steady (Shape.fontSize captured o) :=
  Shape.steady_fontSize_of fun e _ => e.steady_script captured true

@[simp] theorem Shape.steady_body (s : Shape) : Steady (s.body captured) :=
  Shape.steady_body_of fun e _ => e.steady_script captured true

theorem Expr.steady_propertyScripts (ps : List (String × Expr)) :
    ∀ s ∈ Expr.propertyScripts captured ps, Steady s := by
  rw [Expr.propertyScripts_eq_map]
  exact List.forall_mem_map.2 fun q _ => (steady_code _).append (q.2.steady_script captured true)

/-! ## What is collected from expressions -/

namespace Script.Collects

variable {α : Type} {F : Script → List α} {captured : List String}

/-- Only the parentheses around an assignment depend on where an expression stands. -/
theorem script_nested (hF : Collects F) (e : Expr) (nested : Bool) :
    F (e.script captured nested) = F (e.script captured true) := by
  cases e with
  | assign target value =>
    cases nested
    · exact (hF.between (by simp) "(" (by decide)).symm
    · rfl
  | _ => rfl

/-- From an operation, a list or an access is collected what is collected from its parts. -/
theorem script_of_children (hF : Collects F) {e : Expr} (hident : ∀ id, e ≠ .ident id)
    (hshape : ∀ p s, e ≠ .shape p s) (hassign : ∀ target value, e = .assign target value →
      F (target.script captured true ++ Script.code " = ") = F (target.script captured true)) :
    F (e.script captured true) = e.children.flatMap fun c => F (c.script captured true) := by
  have hsealed {s : Script} (h : Steady s) (hs : Sealed s) := hF.append_of_sealed h hs
  have hhead {s s' : Script} (h : Steady s) (hs' : s'.contents.head? ≠ some (.code " = ")) :=
    hF.append_of_head h hs'
  have hcommas {ss : List Script} (h : ∀ s ∈ ss, Steady s) := hF.commaSeparated h
  have hbetween {s : Script} (h : Steady s) {opening closing : String} (hc : closing ≠ " = ") :=
    hF.between h opening hc
  cases e with
  | ident id => exact absurd rfl (hident id)
  | shape p s => exact absurd rfl (hshape p s)
  | array p es =>
    simp [Expr.script, Expr.scripts_eq_map, Expr.children, hbetween, hcommas, List.flatMap_map]
  | object p properties =>
    have hsteady := Expr.steady_propertyScripts captured properties
    rw [Expr.script, hbetween (steady_commaSeparated hsteady) (by decide),
      hF.commaSeparated hsteady, Expr.propertyScripts_eq_map]
    simp [Expr.children, List.flatMap_map, hsealed, hF.code]
  | negate p operand =>
    rw [Expr.script]
    split <;> simp [Expr.children, hsealed, hbetween, hF.code]
  | assign target value =>
    rw [Expr.script, if_pos rfl, hbetween (by simp) (by decide),
      hsealed (by simp) (sealed_append_code _ _), hassign target value rfl]
    simp [Expr.children, hF.script_nested value false]
  | call callee args =>
    rw [Expr.script, Expr.scripts_eq_map, hhead (by simp) (by simp [Script.between])]
    simp [Expr.children, hbetween, hcommas, List.flatMap_map]
  | member base property =>
    have hname : "." ++ property.name ≠ " = " := by
      intro heq
      simpa using congrArg (fun t : String => t.toList.head?) heq
    simp [Expr.script, Expr.children, hF.append_code, hname]
  | binary p op left right =>
    have hop : " " ++ op.spelling ++ " " ≠ " = " := by cases op <;> decide
    simp [Expr.script, Expr.children, hsealed, hhead, hbetween, hF.code, hop]
  | index base key =>
    rw [Expr.script, hhead (by simp) (by simp [Script.between])]
    simp [Expr.children, hbetween]
  | _ => exact hF.code _

/-- From the body of a drawing function is collected what is collected from the fields. -/
theorem mem_body (hF : Collects F)
    (hlocals : ∀ name, '$' ∉ name.toList → F (bind name .pattern) = [])
    (hloop : F polygonLoop = []) (s : Shape) (captured : List String) {x : α} :
    x ∈ F (s.body captured) ↔ ∃ f ∈ s.fields, x ∈ F (f.script captured true) := by
  have happend {s : Script} (h : Steady s) (hs : Sealed s) := hF.append_of_sealed h hs
  have hhead {s s' : Script} (h : Steady s) (hs' : s'.contents.head? ≠ some (.code " = ")) :=
    hF.append_of_head h hs'
  have hconstant {name : String} (hname : '$' ∉ name.toList) {s : Script} (h : Steady s)
      {after : String} (ha : after ≠ " = ") : F (constant name s after) = F s := by
    simp [constant, happend, hhead, hF.code, hF.lineEnd, h, ha, hlocals name hname]
  have hpath {step : String} {x y : Script} (hx : Steady x) (hy : Steady y) :
      F (pathTo step x y) = F x ++ F y := by
    simp [pathTo, happend, hhead, hF.code, hF.lineEnd, hx, hy]
  cases s with
  | polygon x y sides radius color rotation =>
    cases rotation <;> simp [Shape.body, Shape.fields, Expr.scriptOr, happend, hconstant,
      hF.codeLines, hF.code, hloop]
  | text x y content color font size align =>
    cases font <;> cases size <;> by_cases halign : align = "" <;>
      simp [Shape.body, Shape.fields, Shape.fontSize, halign, happend, hconstant, hF.line]
  | line | triangle =>
    simp [Shape.body, Shape.fields, happend, hconstant, hpath, hF.codeLines, hF.line, or_comm,
      or_assoc]
  | _ => simp [Shape.body, Shape.fields, happend, hconstant, hF.codeLines]

end Script.Collects

/-- An expression declares nothing outside its drawing functions. -/
@[simp] theorem Expr.declared_script (e : Expr) (nested : Bool) :
    declared (e.script captured nested) = [] := by
  rw [Collects.declared.script_nested]
  induction e using Expr.parts_induction with
  | h e ih => ?_
  cases e with
  | ident => rfl
  | shape p s => exact declared_drawing _ _ (s.steady_body _)
  | _ =>
    rw [Collects.declared.script_of_children (by simp) (by simp) (by simp)]
    exact List.flatMap_eq_nil_iff.2 ih

@[simp] theorem Expr.declared_scriptOr (fallback : String) (o : Option Expr) :
    declared (Expr.scriptOr captured fallback o) = [] := by
  cases o with
  | none => rfl
  | some e => exact e.declared_script captured true

/-- The constants that the function of a shape declares, in order. -/
def Shape.locals : Shape → List String
  | .circle .. => ["x", "y", "size", "color"]
  | .rect .. => ["x", "y", "w", "h", "color"]
  | .line .. | .triangle .. => ["color"]
  | .polygon .. => ["x", "y", "sides", "radius", "color", "rotation"]
  | .ellipse .. => ["x", "y", "radiusX", "radiusY", "color"]
  | .arc .. => ["x", "y", "radius", "startAngle", "endAngle", "color"]
  | .text _ _ _ _ _ none _ => ["x", "y", "text", "color"]
  | .text _ _ _ _ _ (some _) _ => ["x", "y", "text", "color", "fontSize"]

theorem Shape.locals_subset (s : Shape) : s.locals ⊆ drawingLocals := by
  cases s with
  | text _ _ _ _ _ size _ => cases size <;> simp [locals, drawingLocals]
  | circle | rect | line | triangle | polygon | ellipse | arc => simp [locals, drawingLocals]

theorem Shape.declared_body (s : Shape) :
    declared (s.body captured) = s.locals.map (·, .pattern) := by
  cases s with
  | text x y content color font size align =>
    cases font <;> cases size <;> by_cases halign : align = "" <;>
      simp [body, locals, fontSize, halign]
  | circle | rect | line | triangle | polygon | ellipse | arc => simp [body, locals]

/-- The function of a shape as its fields see it, where the names `captured` are. -/
def Shape.frame (s : Shape) : Frame where
  declared := (s.captured.map captureName ++ s.locals).map (·, .pattern)
  passed := s.captured.map fun n => (captureName n, spell captured n)

theorem Shape.drawingFrame_eq (s : Shape) (inner : List String) :
    drawingFrame captured s.captured (s.body inner) = s.frame captured := by
  simp [drawingFrame, frame, declared_body, Function.comp_def]

end Names

/-! ## The names an expression shows -/

/-- The expression shows the name `n`, spelled `spelling`, where the names `captured` are; `fs` are
the drawing functions around it.  A shape shows the names of its fields, and the names it captures
once more, where it is called. -/
inductive Expr.Uses : List String → Expr → String → String → List Frame → Prop
  | ident {captured : List String} (id : Ident) :
      Uses captured (.ident id) id.name (spell captured id.name) []
  | child {captured : List String} {e c : Expr} {n spelling : String} {fs : List Frame}
      (hc : c ∈ e.children) (h : Uses captured c n spelling fs) : Uses captured e n spelling fs
  | field {captured : List String} {p : Position} {s : Shape} {f : Expr} {n spelling : String}
      {fs : List Frame} (hf : f ∈ s.fields) (h : Uses (s.captured ++ captured) f n spelling fs) :
      Uses captured (.shape p s) n spelling (fs ++ [s.frame captured])
  | argument {captured : List String} {p : Position} {s : Shape} {n : String}
      (hn : n ∈ s.captured) : Uses captured (.shape p s) n (spell captured n) []

/-- The expression shows the name somewhere. -/
def Expr.Shows (e : Expr) (n : String) : Prop := ∃ spelling fs, e.Uses [] n spelling fs

section Uses

variable {captured : List String}

theorem Expr.mem_occurrences_of_children {e : Expr} (hident : ∀ id, e ≠ .ident id)
    (hshape : ∀ p s, e ≠ .shape p s) (x : Content × List Frame) :
    x ∈ occurrences (e.script captured true) ↔
      ∃ c ∈ e.children, x ∈ occurrences (c.script captured true) := by
  rw [Collects.occurrences.script_of_children hident hshape (by simp), List.mem_flatMap]

theorem Expr.mem_occurrences_shape (p : Position) (s : Shape) (x : Content × List Frame) :
    x ∈ occurrences ((Expr.shape p s).script captured true) ↔
      (∃ f ∈ s.fields, ∃ y ∈ occurrences (f.script (s.captured ++ captured) true),
          within (s.frame captured) y = x) ∨
        ∃ n ∈ s.captured, (.use n (spell captured n), []) = x := by
  rw [Expr.script, occurrences_drawing _ _ (s.steady_body _), s.drawingFrame_eq, List.mem_append,
    List.mem_map, List.mem_map]
  have hbody (y : Content × List Frame) :=
    Collects.occurrences.mem_body (fun _ _ => rfl) occurrences_polygonLoop s
      (s.captured ++ captured) (x := y)
  refine or_congr_left ⟨?_, ?_⟩
  · rintro ⟨y, hy, hx⟩
    obtain ⟨f, hf, hy⟩ := (hbody y).1 hy
    exact ⟨f, hf, y, hy, hx⟩
  · rintro ⟨f, hf, y, hy, hx⟩
    exact ⟨y, (hbody y).2 ⟨f, hf, hy⟩, hx⟩

theorem Expr.uses_of_mem_occurrences {e : Expr} {x : Content × List Frame}
    (h : x ∈ occurrences (e.script captured true)) :
    ∃ n spelling fs, x = (.use n spelling, fs) ∧ e.Uses captured n spelling fs := by
  induction e using Expr.parts_induction generalizing captured x with
  | h e ih => ?_
  by_cases hident : ∃ id, e = .ident id
  · obtain ⟨id, rfl⟩ := hident
    exact ⟨_, _, _, List.mem_singleton.1 h, .ident id⟩
  by_cases hshape : ∃ p s, e = .shape p s
  · obtain ⟨p, s, rfl⟩ := hshape
    rcases (Expr.mem_occurrences_shape p s x).1 h with ⟨f, hf, y, hy, rfl⟩ | ⟨n, hn, rfl⟩
    · obtain ⟨n, spelling, fs, rfl, huses⟩ := ih f hf hy
      exact ⟨n, spelling, _, rfl, .field hf huses⟩
    · exact ⟨n, _, _, rfl, .argument hn⟩
  · push Not at hident hshape
    obtain ⟨c, hc, hx⟩ := (Expr.mem_occurrences_of_children hident hshape x).1 h
    have hpart : c ∈ e.parts := by
      cases e with
      | shape p s => exact absurd rfl (hshape p s)
      | _ => exact hc
    obtain ⟨n, spelling, fs, rfl, huses⟩ := ih c hpart hx
    exact ⟨n, spelling, fs, rfl, .child hc huses⟩

theorem Expr.Uses.mem_occurrences {e : Expr} {n spelling : String} {fs : List Frame}
    (h : e.Uses captured n spelling fs) :
    (.use n spelling, fs) ∈ occurrences (e.script captured true) := by
  induction h with
  | ident id => exact List.mem_singleton_self _
  | @child captured e c n spelling fs hc _ ih =>
    refine (Expr.mem_occurrences_of_children ?_ ?_ _).2 ⟨c, hc, ih⟩
    · rintro id rfl
      cases hc
    · rintro p s rfl
      cases hc
  | field hf _ ih => exact (Expr.mem_occurrences_shape _ _ _).2 (.inl ⟨_, hf, _, ih, rfl⟩)
  | argument hn => exact (Expr.mem_occurrences_shape _ _ _).2 (.inr ⟨_, hn, rfl⟩)

/-- The script of an expression shows exactly the names that the expression shows. -/
theorem Expr.mem_occurrences_script {e : Expr} {nested : Bool} {x : Content × List Frame} :
    x ∈ occurrences (e.script captured nested) ↔
      ∃ n spelling fs, x = (.use n spelling, fs) ∧ e.Uses captured n spelling fs := by
  rw [Collects.occurrences.script_nested]
  refine ⟨Expr.uses_of_mem_occurrences, ?_⟩
  rintro ⟨n, spelling, fs, rfl, huses⟩
  exact huses.mem_occurrences

end Uses

end Easel
