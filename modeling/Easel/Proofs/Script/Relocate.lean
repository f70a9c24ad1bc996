import Easel.Script.Stmt
import Easel.Proofs.Scope.Relocate

/-!
# Positions and scripts

The items of a script remember where they come from, but the text of the script is the same wherever
the parts of its program stand (`generate_relocate`).
-/

namespace Easel

variable (f : Position → Position)

/-! ## Expressions and commands -/

theorem Expr.scripts_eq_map (captured : List String) (es : List Expr) :
    Expr.scripts captured es = es.map (Expr.script captured true) := by
  induction es with
  | nil => rfl
  | cons e es ih => rw [Expr.scripts, ih, List.map_cons]

theorem Expr.propertyScripts_eq_map (captured : List String) (ps : List (String × Expr)) :
    Expr.propertyScripts captured ps =
      ps.map fun p => Script.code (Text.quote p.1 ++ ": ") ++ p.2.script captured true := by
  induction ps with
  | nil => rfl
  | cons p ps ih => rw [Expr.propertyScripts, ih, List.map_cons]

theorem Shape.captured_relocate (s : Shape) : (s.relocate f).captured = s.captured := by
  have hfields : (s.relocate f).fields = s.fields.map (Expr.relocate f) := by
    cases s <;> simp [relocate, fields, Expr.relocateOptional_eq_map, Option.toList_map]
  have hreads : (s.relocate f).fields.flatMap Expr.reads =
      (s.fields.flatMap Expr.reads).map (Ident.relocate f) := by
    simp [hfields, List.flatMap_map, List.map_flatMap, Expr.reads_relocate]
  have hnames (n : String) : n ∈ freeNames (s.relocate f).fields ↔ n ∈ freeNames s.fields := by
    rw [mem_freeNames, mem_freeNames, hreads]
    simp only [List.mem_map, exists_exists_and_eq_and, Ident.relocate]
  refine List.filter_congr fun n _ => ?_
  rw [Bool.eq_iff_iff, List.contains_iff_mem, List.contains_iff_mem, hnames]

@[simp] theorem Expr.isNegation_relocate (e : Expr) :
    (e.relocate f).isNegation = e.isNegation := by
  cases e <;> rfl

theorem Expr.scripts_relocate_of {captured : List String} {es : List Expr}
    (h : ∀ e ∈ es, (e.relocate f).script captured true = e.script captured true) :
    Expr.scripts captured (Expr.relocateAll f es) = Expr.scripts captured es := by
  rw [Expr.scripts_eq_map, Expr.scripts_eq_map, Expr.relocateAll_eq_map, List.map_map]
  exact List.map_congr_left h

theorem Expr.scriptOr_relocate_of {captured : List String} {o : Option Expr}
    (h : ∀ e ∈ o.toList, (e.relocate f).script captured true = e.script captured true)
    (fallback : String) :
    Expr.scriptOr captured fallback (Expr.relocateOptional f o) =
      Expr.scriptOr captured fallback o := by
  cases o with
  | none => rfl
  | some e => exact h e (List.mem_singleton_self e)

theorem Shape.body_relocate_of {captured : List String} {s : Shape}
    (h : ∀ e ∈ s.slots, (e.relocate f).script captured true = e.script captured true) :
    (s.relocate f).body captured = s.body captured := by
  cases s <;> simp only [slots, fields, List.forall_mem_append, List.forall_mem_cons,
    List.not_mem_nil, false_implies, implies_true, and_true] at h
  case text font size align =>
    have hsize : Shape.fontSize captured (Expr.relocateOptional f size) =
        Shape.fontSize captured size := by
      cases size with
      | none => rfl
      | some e => simp only [Expr.relocateOptional, fontSize, h.2 e (List.mem_singleton_self e)]
    simp only [relocate, body, h.1, hsize]
    cases font <;> rfl
  case polygon | ellipse => simp only [relocate, body, h.1, Expr.scriptOr_relocate_of f h.2]
  all_goals simp only [relocate, body, h]

@[simp] theorem Expr.script_relocate (captured : List String) (nested : Bool) (e : Expr) :
    (e.relocate f).script captured nested = e.script captured nested := by
  induction e using Expr.slots_induction generalizing captured nested with
  | h e ih => ?_
  cases e with
  | ident | number | string | color | bool | null => rfl
  | array p elements =>
    have helements : ∀ e ∈ elements,
        (e.relocate f).script captured true = e.script captured true := fun e he => ih e he _ _
    rw [Expr.relocate, Expr.script, Expr.script, Expr.scripts_relocate_of f helements]
  | object p properties =>
    have hvalues : ∀ q ∈ properties,
        (q.2.relocate f).script captured true = q.2.script captured true :=
      fun q hq => ih q.2 (List.mem_map_of_mem hq) _ _
    have hscripts : ∀ q ∈ properties,
        Script.code (Text.quote q.1 ++ ": ") ++ (q.2.relocate f).script captured true =
          Script.code (Text.quote q.1 ++ ": ") ++ q.2.script captured true :=
      fun q hq => congrArg (Script.code _ ++ ·) (hvalues q hq)
    rw [Expr.relocate, Expr.script, Expr.script, Expr.propertyScripts_eq_map,
      Expr.propertyScripts_eq_map, Expr.relocateProperties_eq_map, List.map_map,
      ← List.map_congr_left hscripts]
    rfl
  | call callee args =>
    obtain ⟨hcallee, hargs⟩ := List.forall_mem_cons.1 ih
    rw [Expr.relocate, Expr.script, Expr.script, hcallee,
      Expr.scripts_relocate_of f fun e he => hargs e he _ _]
  | shape p s =>
    rw [Expr.relocate, Expr.script, Expr.script, Shape.captured_relocate,
      Shape.body_relocate_of f fun e he => ih e he _ _]
  | negate | binary | assign | member | index =>
    simp only [slots, children, List.forall_mem_cons] at ih
    simp [Expr.relocate, Expr.script, ih]

@[simp] theorem Expr.scriptOr_relocate (captured : List String) (fallback : String)
    (o : Option Expr) :
    Expr.scriptOr captured fallback (Expr.relocateOptional f o) =
      Expr.scriptOr captured fallback o :=
  Expr.scriptOr_relocate_of f (fun e _ => Expr.script_relocate f captured true e) fallback

@[simp] theorem Motion.script_relocate (m : Motion) : (m.relocate f).script = m.script := by
  cases m with
  | move amount direction =>
    cases direction <;> simp [Motion.relocate, Motion.script, Script.update, Expr.argument]
  | spring targetX targetY stiffness damping =>
    cases damping <;> simp [Motion.relocate, Motion.script, Expr.argument, Expr.relocateOptional]
  | _ => simp [Motion.relocate, Motion.script, Script.update, Expr.argument]

/-! ## Scripts without origins -/

namespace Script

/-- The item without its origin. -/
def Item.unplaced (i : Item) : Item := { i with origin := none }

/-- The line without its origin. -/
def Line.unplaced (l : Line) : Line := { l with origin := none }

/-- The script without the origins of its items. -/
def unplaced (s : Script) : Script := s.map Item.unplaced

@[simp] theorem unplaced_append (s t : Script) : unplaced (s ++ t) = unplaced s ++ unplaced t :=
  List.map_append

@[simp] theorem unplaced_comingFrom (p : Position) (s : Script) :
    unplaced (comingFrom p s) = unplaced s := by
  rw [unplaced, unplaced, comingFrom, List.map_map]
  rfl

@[simp] theorem unplaced_indented (s : Script) : unplaced (indented s) = indented (unplaced s) := by
  rw [unplaced, indented, indented, unplaced, List.map_map, List.map_map]
  rfl

@[simp] theorem unplaced_inScope (s : Script) : unplaced (inScope s) = inScope (unplaced s) := by
  simp only [inScope, unplaced, List.map_cons, List.map_append, List.map_nil]
  rfl

@[simp] theorem unplaced_block (s : Script) : unplaced (block s) = block (unplaced s) := by
  simp only [block, unplaced_append, unplaced_inScope, unplaced_indented]
  rfl

theorem unplaced_compact (s : Script) : unplaced (compact s) = compact (unplaced s) := by
  rw [unplaced, unplaced, compact, compact, List.filter_map, List.map_map, List.map_map]
  rfl

theorem Item.writeOn_unplaced (i : Item) (current : Option Line) :
    i.unplaced.writeOn (current.map Line.unplaced) = (i.writeOn current).map Line.unplaced := by
  unfold Item.writeOn
  by_cases h : i.content.text.isEmpty
  · rw [if_pos h]
    exact if_pos h
  · rw [if_neg h]
    cases current <;> exact if_neg h

theorem linesFrom_unplaced (current : Option Line) (s : Script) :
    linesFrom (current.map Line.unplaced) (unplaced s) =
      (linesFrom current s).map Line.unplaced := by
  induction s generalizing current with
  | nil => rfl
  | cons i s ih =>
    have hends : i.unplaced.endsLine = i.endsLine := rfl
    simp only [unplaced, List.map_cons, linesFrom, hends, Item.writeOn_unplaced]
    by_cases h : i.endsLine
    · rw [if_pos h, if_pos h, List.map_cons]
      refine congrArg₂ List.cons ?_ (ih none)
      cases i.writeOn current <;> rfl
    · rw [if_neg h, if_neg h]
      exact ih _

/-- The text of a script does not depend on its origins. -/
theorem print_unplaced (s : Script) : print (unplaced s) = print s := by
  rw [print, print, lines, lines, ← Option.map_none (f := Line.unplaced), linesFrom_unplaced,
    List.map_map]
  rfl

end Script

/-! ## Statements -/

@[simp] theorem Binding.script_relocate (b : Binding) : (b.relocate f).script = b.script := by
  simp [Binding.relocate, Binding.script]

@[simp] theorem Init.script_relocate (i : Init) : (i.relocate f).script = i.script := by
  cases i <;> simp [Init.relocate, Init.script]

@[simp] theorem Command.unplaced_script_relocate (c : Command) :
    Script.unplaced (c.relocate f).script = Script.unplaced c.script := by
  simp [Command.script, Command.relocate]

theorem unplaced_animateScript_relocate (name : String) (commands : List Command) :
    Script.unplaced (animateScript name (commands.map (Command.relocate f))) =
      Script.unplaced (animateScript name commands) := by
  have hcommands : Script.unplaced ((commands.map (Command.relocate f)).flatMap Command.script) =
      Script.unplaced (commands.flatMap Command.script) := by
    induction commands with
    | nil => rfl
    | cons c commands ih => simp [ih]
  simp [animateScript, hcommands]

/-- Scripts with the same text that give out the same function names. -/
def Script.SameText (a b : Script.Names × Script) : Prop :=
  a.1 = b.1 ∧ Script.unplaced a.2 = Script.unplaced b.2

mutual

theorem Stmt.script_relocate (names : Script.Names) :
    ∀ s : Stmt, Script.SameText ((s.relocate f).script names) (s.script names)
  | .binding b => ⟨rfl, by simp [Stmt.relocate, Stmt.script]⟩
  | .function _ name params body => by
    obtain ⟨hnames, hscript⟩ := Stmt.scripts_relocate names body
    exact ⟨hnames, by simp [Stmt.relocate, Stmt.script, hscript, Function.comp_def]⟩
  | .ret _ none => ⟨rfl, rfl⟩
  | .ret _ (some value) => ⟨rfl, by simp [Stmt.relocate, Expr.relocateOptional, Stmt.script]⟩
  | .ifThen _ cond body | .repeatLoop _ cond body | .whileLoop _ cond body => by
    obtain ⟨hnames, hscript⟩ := Stmt.scripts_relocate names body
    exact ⟨hnames, by simp [Stmt.relocate, Stmt.script, hscript]⟩
  | .ifElse _ cond body alternative => by
    obtain ⟨hnames, hscript⟩ := Stmt.scripts_relocate names body
    obtain ⟨hnames', hscript'⟩ := Stmt.scripts_relocate (Stmt.scripts names body).1 alternative
    refine ⟨by simp [Stmt.relocate, Stmt.script, hnames, hnames'], ?_⟩
    simp [Stmt.relocate, Stmt.script, hnames, hscript, hscript']
  | .forLoop _ init cond update body => by
    obtain ⟨hnames, hscript⟩ := Stmt.scripts_relocate names body
    refine ⟨hnames, ?_⟩
    simp [Stmt.relocate, Stmt.script, hscript, Expr.relocateOptional_eq_map, Function.comp_def]
  | .importFrom _ ids path => by
    refine ⟨rfl, ?_⟩
    cases ids <;> simp [Stmt.relocate, Stmt.script, importComment, Function.comp_def]
  | .scene _ name body => by
    obtain ⟨hnames, hscript⟩ := Stmt.scripts_relocate
      { names with scenes := names.sceneName name :: names.scenes } body
    exact ⟨hnames, by simp [Stmt.relocate, Stmt.script, hscript]⟩
  | .animate _ commands => ⟨rfl, unplaced_animateScript_relocate f _ commands⟩
  | .expr e => ⟨rfl, by simp [Stmt.relocate, Stmt.script]⟩

theorem Stmt.scripts_relocate (names : Script.Names) : ∀ ss : List Stmt,
    Script.SameText (Stmt.scripts names (Stmt.relocateAll f ss)) (Stmt.scripts names ss)
  | [] => ⟨rfl, rfl⟩
  | s :: ss => by
    obtain ⟨hfirst, hscript⟩ := Stmt.script_relocate names s
    obtain ⟨hrest, hscripts⟩ := Stmt.scripts_relocate (s.script names).1 ss
    refine ⟨by simp [Stmt.relocateAll, Stmt.scripts, hfirst, hrest], ?_⟩
    simp [Stmt.relocateAll, Stmt.scripts, hfirst, hscript, hscripts]

end

/-- The text of a program's script does not depend on positions. -/
theorem generate_relocate (style : Script.Style) (p : Program) :
    generate style (Stmt.relocateAll f p) = generate style p := by
  have hfull : Script.unplaced
      (Program.fullScript style.canvasId style.fps (Stmt.relocateAll f p)) =
        Script.unplaced (p.fullScript style.canvasId style.fps) := by
    simp only [Program.fullScript, Script.unplaced_append, Script.unplaced_inScope,
      Script.unplaced_indented, (Stmt.scripts_relocate f {} p).2]
  have hscript : Script.unplaced (Program.script style (Stmt.relocateAll f p)) =
      Script.unplaced (p.script style) := by
    unfold Program.script
    by_cases h : style.minify
    · rw [if_pos h, if_pos h, Script.unplaced_compact, Script.unplaced_compact, hfull]
    · rw [if_neg h, if_neg h, hfull]
  rw [generate, generate, ← Script.print_unplaced, hscript, Script.print_unplaced]

end Easel
