import Easel.Proofs.Script.Quiet

/-!
# What is being written

A script is written statement by statement.  The trace of a program has each item of its script with
the constructs that are being written at that item: the statements, animation commands and loop
clauses that the item is part of, the innermost first.  `Trace.lines` tells for every line what is
being written when its first text is.

The script of a program is its trace where each item comes from the innermost construct that is no
clause (`Stmt.script_traces`), and so does every line (`Trace.map_origin_lines`).
-/

namespace Easel

open Script

/-! ## Constructs and traces -/

/-- The place of the first clause of a loop. -/
def Init.position : Init → Position
  | .binding b => b.position
  | .expr e => e.position

/-- A part of a program while it is written. -/
inductive Construct where
  | statement (s : Stmt)
  | command (c : Command)
  /-- The first clause of a loop. -/
  | clause (i : Init)

namespace Construct

def position : Construct → Position
  | statement s => s.position
  | command c => c.position
  | clause i => i.position

def isClause : Construct → Bool
  | clause _ => true
  | _ => false

/-- The innermost construct that is no clause. -/
def innermost? (cs : List Construct) : Option Construct := cs.find? fun c => !c.isClause

/-- The place of that construct. -/
def place? (cs : List Construct) : Option Position := (innermost? cs).map position

end Construct

/-- Items with the constructs that are being written, the innermost first. -/
abbrev Trace := List (Item × List Construct)

namespace Trace

/-- A script that is written by the same constructs throughout. -/
def of (cs : List Construct) (s : Script) : Trace := s.map fun i => (i, cs)

def indented (t : Trace) : Trace := t.map fun (i, cs) => ({ i with indent := i.indent + 1 }, cs)

def inScope (cs : List Construct) (t : Trace) : Trace :=
  of cs [{ content := .enter }] ++ t ++ of cs [{ content := .leave }]

def braced (cs : List Construct) (close : String) (t : Trace) : Trace :=
  inScope cs (indented t) ++ of cs (line close)

def block (cs : List Construct) (t : Trace) : Trace :=
  of cs (code r" {" ++ lineEnd) ++ braced cs r"}" t

/-- The trace of an optional first clause. -/
def ofInit (cs : List Construct) : Option Init → Trace
  | none => []
  | some i => of (.clause i :: cs) i.script

/-- The trace of commands. -/
def ofCommands (cs : List Construct) (commands : List Command) : Trace :=
  commands.flatMap fun c => of (.command c :: cs) c.motion.script

/-- The trace of an `animate` block whose function has a given name. -/
def ofAnimate (cs : List Construct) (name : String) (commands : List Command) : Trace :=
  of cs (Script.comment "Animation loop" ++ code "function " ++ bind name .pattern ++
    code r"() {" ++ lineEnd) ++
  braced cs r"}" (of cs (line "clear();") ++ ofCommands cs commands ++
    of cs (line ("requestAnimationFrame(" ++ name ++ ");"))) ++
  of cs (line (name ++ "();"))

/-- The trace without layout. -/
def compact (t : Trace) : Trace :=
  (t.filter fun (i, _) => !i.isLayout).map fun (i, cs) => ({ i with indent := 0 }, cs)

/-- The constructs at the first text of each complete line, after the unfinished line whose first
text was written by `current`. -/
def linesFrom : Option (List Construct) → Trace → List (Option (List Construct))
  | _, [] => []
  | current, (i, cs) :: rest =>
    let first := if i.content.text.isEmpty then current else current.or (some cs)
    if i.endsLine then first :: linesFrom none rest else linesFrom first rest

/-- For each line, the constructs that are being written when its first text is. -/
def lines (t : Trace) : List (Option (List Construct)) := linesFrom none t

/-- The script of a trace: an item comes from the innermost construct that is no clause. -/
def script (t : Trace) : Script :=
  t.map fun (i, cs) => { i with origin := Construct.place? cs }

end Trace

mutual

/-- The trace of a statement that the constructs `cs`, itself the innermost, are writing. -/
def Stmt.trace (cs : List Construct) (names : Names) : Stmt → Trace
  | .binding b => .of cs (b.script ++ code ";" ++ lineEnd)
  | .function _ name params body =>
    .of cs (code "function " ++ bind name.name .program) ++
      .inScope cs (.of cs (between "(" ")"
        (commaSeparated (params.map fun p => bind p.name .program))) ++
        .block cs (Stmt.traces cs names body))
  | .ret _ none => .of cs (line "return;")
  | .ret _ (some value) => .of cs (between "return " ";" (value.script [] false) ++ lineEnd)
  | .ifThen _ cond body =>
    .of cs (between "if (" ")" (cond.script [] true)) ++ .block cs (Stmt.traces cs names body)
  | .ifElse _ cond body alternative =>
    .of cs (between "if (" r") {" (cond.script [] true) ++ lineEnd) ++
      .braced cs r"} else {" (Stmt.traces cs names body) ++
      .braced cs r"}" (Stmt.traces cs (Stmt.scripts names body).1 alternative)
  | .repeatLoop _ times body =>
    .inScope cs (.of cs (code "for (let " ++ bind "__i" .pattern ++ code " = 0; __i < " ++
      times.script [] true ++ code "; __i++)") ++ .block cs (Stmt.traces cs names body))
  | .whileLoop _ cond body =>
    .of cs (between "while (" ")" (cond.script [] true)) ++ .block cs (Stmt.traces cs names body)
  | .forLoop _ init cond update body =>
    .inScope cs (.of cs (code "for (") ++ .ofInit cs init ++
      .of cs (code "; " ++ cond.script [] true ++ between "; " ")" (Expr.scriptOf update)) ++
      .block cs (Stmt.traces cs names body))
  | .importFrom _ ids path => .of cs (importComment ids path)
  | .scene _ name body =>
    .of cs (Script.comment ("Scene: " ++ name) ++ code "function " ++
      bind (names.sceneName name) .pattern ++ code "()") ++
      .block cs (Stmt.traces cs (names.withScene name) body) ++
      .of cs (line (names.sceneName name ++ "();"))
  | .animate _ commands => .ofAnimate cs names.animationName commands
  | .expr e => .of cs (e.script [] false ++ code ";" ++ lineEnd)

/-- The trace of statements in turn, each inside the constructs `cs`. -/
def Stmt.traces (cs : List Construct) (names : Names) : List Stmt → Trace
  | [] => []
  | s :: rest =>
    Stmt.trace (.statement s :: cs) names s ++ Stmt.traces cs (s.script names).1 rest

end

/-! ## Items without an origin -/

/-- No item of the script has an origin yet. -/
def Script.Bare (s : Script) : Prop := ∀ i ∈ s, i.origin = none

namespace Script

variable {s s' : Script}

theorem Quiet.bare (h : Quiet s) : Bare s := fun i hi => (h i hi).1

@[simp] theorem bare_nil : Bare [] := List.forall_mem_nil _

@[simp] theorem bare_append : Bare (s ++ s') ↔ Bare s ∧ Bare s' :=
  List.forall_mem_append

@[simp] theorem bare_code (text : String) : Bare (code text) :=
  List.forall_mem_singleton.2 rfl

@[simp] theorem bare_bind (name : String) (owner : Owner) : Bare (bind name owner) :=
  List.forall_mem_singleton.2 rfl

@[simp] theorem bare_comment (text : String) : Bare (comment text) :=
  List.forall_mem_singleton.2 rfl

@[simp] theorem bare_lineEnd : Bare lineEnd := List.forall_mem_singleton.2 rfl

@[simp] theorem bare_line (text : String) : Bare (line text) := by simp [line]

@[simp] theorem bare_between (opening closing : String) :
    Bare (between opening closing s) ↔ Bare s := by
  simp [between]

@[simp] theorem bare_commaSeparated_map {α : Type} (f : α → Script) (h : ∀ a, Bare (f a))
    (as : List α) : Bare (commaSeparated (as.map f)) :=
  commaSeparated_induction bare_nil (bare_code ", ") (bare_append.2 ⟨·, ·⟩)
    (List.forall_mem_map.2 fun a _ => h a)

end Script

@[simp] theorem Expr.bare_script (e : Expr) (captured : List String) (nested : Bool) :
    Bare (e.script captured nested) :=
  (e.quiet_script captured nested).bare

@[simp] theorem Expr.bare_scriptOf (o : Option Expr) : Bare (Expr.scriptOf o) := by
  cases o <;> simp [Expr.scriptOf]

@[simp] theorem Motion.bare_script (m : Motion) : Bare m.script := m.quiet_script.bare

@[simp] theorem Binding.bare_script (b : Binding) : Bare b.script := by
  simp [Binding.script]

@[simp] theorem Init.bare_script (i : Init) : Bare i.script := by
  cases i <;> simp [Init.script]

@[simp] theorem bare_importComment (ids : List Ident) (path : String) :
    Bare (importComment ids path) := by
  obtain ⟨text, heq⟩ := importComment_eq ids path
  rw [heq]
  exact bare_comment text

/-! ## From traces to scripts -/

/-- The trace is that of a script which comes from `p`, except where inner constructs write it. -/
def Trace.Writes (p : Position) (t : Trace) (s : Script) : Prop := t.script = comingFrom p s

namespace Trace

variable {cs : List Construct} {p : Position} {t t' : Trace} {s s' : Script}

@[simp] theorem script_append (t t' : Trace) : (t ++ t').script = t.script ++ t'.script :=
  List.map_append

theorem Writes.append (h : Writes p t s) (h' : Writes p t' s') : Writes p (t ++ t') (s ++ s') := by
  rw [Writes, script_append, h, h', comingFrom, comingFrom, comingFrom, List.map_append]

/-- What was written by constructs inside keeps its origin. -/
theorem Writes.inside {q : Position} (h : Writes q t s) (p : Position) :
    Writes p t (comingFrom q s) := by
  rw [Writes, h, comingFrom, comingFrom, List.map_map]
  refine List.map_congr_left fun i _ => ?_
  simp

theorem script_indented (t : Trace) : (indented t).script = Script.indented t.script := by
  rw [script, Trace.indented, script, Script.indented, List.map_map, List.map_map]
  rfl

theorem Writes.indented (h : Writes p t s) : Writes p t.indented (Script.indented s) := by
  rw [Writes, script_indented, h, Script.indented, comingFrom, comingFrom, Script.indented,
    List.map_map, List.map_map]
  rfl

section Own

variable (hp : Construct.place? cs = some p)
include hp

theorem writes_of (hs : Bare s) : Writes p (of cs s) s := by
  rw [Writes, script, of, comingFrom, List.map_map]
  refine List.map_congr_left fun i hi => ?_
  simp [hp, hs i hi]

theorem Writes.inScope (h : Writes p t s) : Writes p (inScope cs t) (Script.inScope s) :=
  ((writes_of hp (List.forall_mem_singleton.2 rfl)).append h).append
    (writes_of hp (List.forall_mem_singleton.2 rfl))

theorem Writes.braced (close : String) (h : Writes p t s) :
    Writes p (braced cs close t) (Script.braced close s) :=
  (h.indented.inScope hp).append (writes_of hp (bare_line close))

theorem Writes.block (h : Writes p t s) : Writes p (block cs t) (Script.block s) := by
  rw [block_eq, ← List.append_assoc]
  exact (writes_of hp (by simp)).append (h.braced hp _)

theorem writes_ofInit (init : Option Init) : Writes p (ofInit cs init) (Init.scriptOf init) := by
  cases init with
  | none => rfl
  | some i =>
    have hclause : Construct.place? (.clause i :: cs) = some p := hp
    exact writes_of hclause (Init.bare_script i)

omit hp in
theorem writes_ofCommands (cs : List Construct) (p : Position) (commands : List Command) :
    Writes p (ofCommands cs commands) (commands.flatMap Command.script) := by
  induction commands with
  | nil => rfl
  | cons c commands ih =>
    have hc : Writes c.position (of (.command c :: cs) c.motion.script) c.motion.script :=
      writes_of rfl (Motion.bare_script _)
    exact (hc.inside p).append ih

theorem writes_ofAnimate (name : String) (commands : List Command) :
    Writes p (ofAnimate cs name commands) (animateScript name commands) := by
  have hbody := ((writes_of hp (bare_line "clear();")).append (writes_ofCommands cs p commands)).append
    (writes_of hp (bare_line ("requestAnimationFrame(" ++ name ++ ");")))
  have hhead : Writes p _ (Script.comment "Animation loop" ++ code "function " ++
      bind name .pattern ++ code r"() {" ++ lineEnd) := writes_of hp (by simp)
  have hall := (hhead.append (hbody.braced hp r"}")).append
    (writes_of hp (bare_line (name ++ "();")))
  rw [animateScript_eq]
  simpa [ofAnimate, animateBody] using hall

end Own

end Trace

open Trace

mutual

theorem Stmt.writes_trace {cs : List Construct} {p : Position}
    (hp : Construct.place? cs = some p) (names : Names) :
    ∀ s : Stmt, Writes p (s.trace cs names) (s.script names).2
  | .binding b => writes_of hp (by simp)
  | .function _ name params body => by
    have hbody := Stmt.writes_traces cs p names body
    exact (writes_of hp (by simp)).append (((writes_of hp (by simp)).append
      (hbody.block hp)).inScope hp)
  | .ret _ none => writes_of hp (by simp)
  | .ret _ (some value) => writes_of hp (by simp)
  | .ifThen _ cond body | .whileLoop _ cond body =>
    (writes_of hp (by simp)).append ((Stmt.writes_traces cs p names body).block hp)
  | .ifElse _ cond body alternative => by
    have hbody := Stmt.writes_traces cs p names body
    have halternative := Stmt.writes_traces cs p (Stmt.scripts names body).1 alternative
    rw [Stmt.script_ifElse_eq, ← List.append_assoc, ← List.append_assoc]
    exact ((writes_of hp (by simp)).append (hbody.braced hp _)).append (halternative.braced hp _)
  | .repeatLoop _ times body =>
    ((writes_of hp (by simp)).append ((Stmt.writes_traces cs p names body).block hp)).inScope hp
  | .forLoop q init cond update body => by
    have hbody := Stmt.writes_traces cs p names body
    have hclauses : ((Stmt.forLoop q init cond update body).script names).2 =
        Script.inScope (code "for (" ++ Init.scriptOf init ++ (code "; " ++ cond.script [] true ++
          between "; " ")" (Expr.scriptOf update)) ++ Script.block (Stmt.scripts names body).2) := by
      simp [Stmt.script, between, Init.scriptOf, Expr.scriptOf]
    rw [hclauses]
    exact ((((writes_of hp (by simp)).append (writes_ofInit hp init)).append
      (writes_of hp (by simp))).append (hbody.block hp)).inScope hp
  | .importFrom _ ids path => writes_of hp (by simp)
  | .scene _ name body => by
    have hbody := Stmt.writes_traces cs p (names.withScene name) body
    exact ((writes_of hp (by simp)).append (hbody.block hp)).append (writes_of hp (by simp))
  | .animate _ commands => writes_ofAnimate hp _ commands
  | .expr e => writes_of hp (by simp)

theorem Stmt.writes_traces (cs : List Construct) (p : Position) (names : Names) :
    ∀ ss : List Stmt, Writes p (Stmt.traces cs names ss) (Stmt.scripts names ss).2
  | [] => rfl
  | s :: ss => by
    have hs : Writes s.position (s.trace (.statement s :: cs) names) (s.script names).2 :=
      Stmt.writes_trace rfl names s
    rw [Stmt.scripts]
    exact (hs.inside p).append (Stmt.writes_traces cs p _ ss)

end

/-- The script of statements is their trace, each item with its origin. -/
theorem Stmt.script_traces (cs : List Construct) (names : Names) (ss : List Stmt) :
    (Stmt.traces cs names ss).script = (Stmt.scripts names ss).2 := by
  induction ss generalizing names with
  | nil => rfl
  | cons s ss ih =>
    have hs : Writes s.position (s.trace (.statement s :: cs) names) (s.script names).2 :=
      Stmt.writes_trace rfl names s
    rw [Stmt.traces, script_append, hs, ih]
    rfl

namespace Trace

theorem script_compact (t : Trace) : (compact t).script = Script.compact t.script := by
  rw [script, compact, List.map_map, script, Script.compact, List.filter_map, List.map_map]
  rfl

/-- An item starts a line in the script where it does in the trace. -/
theorem map_origin_writeOn {current : Option Line} {first : Option (List Construct)}
    (h : current.map Line.origin = first.map Construct.place?) (i : Item) (cs : List Construct) :
    (Item.writeOn { i with origin := Construct.place? cs } current).map Line.origin =
      (if i.content.text.isEmpty then first else first.or (some cs)).map Construct.place? := by
  unfold Item.writeOn
  by_cases htext : i.content.text.isEmpty
  · rw [if_pos htext, if_pos htext, h]
  · rw [if_neg htext, if_neg htext]
    cases current with
    | none =>
      cases first with
      | none => rfl
      | some cs' => cases h
    | some l =>
      cases first with
      | none => cases h
      | some cs' => exact h

theorem origin_getD {current : Option Line} {first : Option (List Construct)}
    (h : current.map Line.origin = first.map Construct.place?) :
    (current.getD {}).origin = first.bind Construct.place? := by
  cases current with
  | none =>
    cases first with
    | none => rfl
    | some cs => cases h
  | some l =>
    cases first with
    | none => cases h
    | some cs => exact Option.some.inj h

/-- Each line comes from the innermost construct that writes its first text. -/
theorem map_origin_linesFrom {current : Option Line} {first : Option (List Construct)}
    (h : current.map Line.origin = first.map Construct.place?) (t : Trace) :
    (Script.linesFrom current t.script).map Line.origin =
      (linesFrom first t).map fun cs => cs.bind Construct.place? := by
  induction t generalizing current first with
  | nil => rfl
  | cons x t ih =>
    obtain ⟨i, cs⟩ := x
    have hfirst := map_origin_writeOn h i cs
    have hnone : (none : Option Line).map Line.origin = none.map Construct.place? := rfl
    have hends : Item.endsLine { i with origin := Construct.place? cs } = i.endsLine := rfl
    show (Script.linesFrom current ({ i with origin := Construct.place? cs } :: script t)).map _ = _
    rw [Script.linesFrom, linesFrom, hends]
    by_cases hend : i.endsLine = true
    · rw [if_pos hend, if_pos hend, List.map_cons, List.map_cons,
        ih hnone]
      exact congrArg (· :: _) (origin_getD hfirst)
    · rw [if_neg hend, if_neg hend]
      exact ih hfirst

theorem map_origin_lines (t : Trace) :
    t.script.lines.map Line.origin = t.lines.map fun cs => cs.bind Construct.place? :=
  map_origin_linesFrom rfl t

end Trace

end Easel
