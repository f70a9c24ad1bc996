import Easel.Proofs.Script.Spelling

/-!
# Properties of all names of a script

`Script.Everywhere P outer s` says that every name of the script `s`, with the frames around it, has
the property `P`, where the frames `outer` are around the whole script.  It is taken apart along the
statements of a program: the body of a statement has one frame more around it, and the clauses of a
loop another one.
-/

namespace Easel

namespace Script

/-! ## Bodies in braces -/

/-- A body and the line that closes it. -/
def braced (close : String) (body : Script) : Script := inScope (indented body) ++ line close

section Braced

variable {body : Script} {close : String}

@[simp] theorem steady_braced (h : Steady body) (hclose : close ≠ "(") :
    Steady (braced close body) :=
  steady_inScope_append close (steady_indented.2 h) (steady_line close) rfl hclose

@[simp] theorem declared_braced (h : Steady body) : declared (braced close body) = [] := by
  have hscope := balanced_inScope (steady_indented.2 h)
  rw [braced, declared, contents_append, (hscope.direct_append _).1, List.filterMap_append]
  exact congrArg₂ (· ++ ·) (declared_inScope (steady_indented.2 h)) (declared_line close)

theorem occurrences_braced (h : Steady body) (hclose : close ≠ "(") :
    occurrences (braced close body) = (occurrences body).map (within ⟨declared body, []⟩) := by
  rw [braced, occurrences_inScope_append close (steady_indented.2 h) (steady_line close) rfl hclose,
    occurrences_line, List.append_nil, occurrences_indented, declared_indented]

theorem block_eq (body : Script) :
    block body = code r" {" ++ (lineEnd ++ braced r"}" body) := by
  simp [block, braced]

theorem commandBlock_eq (body : Script) :
    commandBlock body = line r"{" ++ braced r"}" body := by
  simp [commandBlock, braced]

end Braced

/-! ## Everywhere -/

/-- Every name of the script has the property, where the frames `outer` are around the script. -/
def Everywhere (P : Content → List Frame → Prop) (outer : List Frame) (s : Script) : Prop :=
  ∀ x ∈ occurrences s, P x.1 (x.2 ++ outer)

section Everywhere

variable {P : Content → List Frame → Prop} {outer : List Frame} {s : Script}

theorem everywhere_of_occurrences_eq_nil (h : occurrences s = []) : Everywhere P outer s := by
  rw [Everywhere, h]
  exact List.forall_mem_nil _

@[simp] theorem everywhere_nil : Everywhere P outer [] :=
  everywhere_of_occurrences_eq_nil occurrences_nil

@[simp] theorem everywhere_append (h : Steady s) (s' : Script) :
    Everywhere P outer (s ++ s') ↔ Everywhere P outer s ∧ Everywhere P outer s' := by
  rw [Everywhere, occurrences_append h, List.forall_mem_append]
  rfl

@[simp] theorem everywhere_code (text : String) : Everywhere P outer (code text) :=
  everywhere_of_occurrences_eq_nil rfl

@[simp] theorem everywhere_bind_program (name : String) :
    Everywhere P outer (bind name .program) ↔ P (.bind name .program) outer := by
  simp [Everywhere]

@[simp] theorem everywhere_bind_pattern (name : String) : Everywhere P outer (bind name .pattern) :=
  everywhere_of_occurrences_eq_nil rfl

@[simp] theorem everywhere_lineEnd : Everywhere P outer lineEnd :=
  everywhere_of_occurrences_eq_nil rfl

@[simp] theorem everywhere_line (text : String) : Everywhere P outer (line text) :=
  everywhere_of_occurrences_eq_nil rfl

@[simp] theorem everywhere_comment (text : String) : Everywhere P outer (comment text) :=
  everywhere_of_occurrences_eq_nil rfl

@[simp] theorem everywhere_codeLines (texts : List String) : Everywhere P outer (codeLines texts) :=
  everywhere_of_occurrences_eq_nil (occurrences_codeLines texts)

@[simp] theorem everywhere_comingFrom (p : Position) :
    Everywhere P outer (comingFrom p s) ↔ Everywhere P outer s := by
  rw [Everywhere, occurrences_comingFrom, Everywhere]

@[simp] theorem everywhere_between (h : Steady s) (opening closing : String) :
    Everywhere P outer (between opening closing s) ↔ Everywhere P outer s := by
  rw [Everywhere, occurrences_between h, Everywhere]

@[simp] theorem everywhere_commaSeparated {ss : List Script} (h : ∀ s ∈ ss, Steady s) :
    Everywhere P outer (commaSeparated ss) ↔ ∀ s ∈ ss, Everywhere P outer s := by
  rw [Everywhere, occurrences_commaSeparated h, List.forall_mem_flatMap]
  rfl

theorem forall_mem_within (f : Frame) (xs : List (Content × List Frame)) :
    (∀ x ∈ xs.map (within f), P x.1 (x.2 ++ outer)) ↔ ∀ x ∈ xs, P x.1 (x.2 ++ f :: outer) := by
  simp only [List.forall_mem_map, within, List.append_assoc, List.singleton_append]

@[simp] theorem everywhere_braced (h : Steady s) {close : String} (hclose : close ≠ "(") :
    Everywhere P outer (braced close s) ↔ Everywhere P (⟨declared s, []⟩ :: outer) s := by
  rw [Everywhere, occurrences_braced h hclose, forall_mem_within, Everywhere]

theorem everywhere_inScope_of_head (text : String) (h : Steady s)
    (hhead : s.contents.head? = some (.code text)) (htext : text ≠ "(function(") :
    Everywhere P outer (inScope s) ↔ Everywhere P (⟨declared s, []⟩ :: outer) s := by
  rw [Everywhere, occurrences_inScope_of_head text h hhead htext, forall_mem_within, Everywhere]

@[simp] theorem steady_block (h : Steady s) : Steady (block s) := by
  simp [block_eq, h]

@[simp] theorem declared_block (h : Steady s) : declared (block s) = [] := by
  simp [block_eq, h]

@[simp] theorem everywhere_block (h : Steady s) :
    Everywhere P outer (block s) ↔ Everywhere P (⟨declared s, []⟩ :: outer) s := by
  simp [block_eq, h]

@[simp] theorem steady_commandBlock (h : Steady s) : Steady (commandBlock s) := by
  simp [commandBlock_eq, h]

@[simp] theorem declared_commandBlock (h : Steady s) : declared (commandBlock s) = [] := by
  simp [commandBlock_eq, h]

@[simp] theorem everywhere_commandBlock (h : Steady s) :
    Everywhere P outer (commandBlock s) ↔ Everywhere P (⟨declared s, []⟩ :: outer) s := by
  simp [commandBlock_eq, h]

end Everywhere

end Script

open Script

/-! ## Commands -/

/-- The names that the pattern of a command declares. -/
def Motion.locals : Motion → List String
  | .orbit .. => ["orbitAngle"]
  | .pulse .. => ["pulseValue"]
  | .spring .. => ["springStiffness", "dx", "dy"]
  | _ => []

/-- The scope around the arguments of a command, if it has one. -/
def Motion.frames (m : Motion) : List Frame :=
  if m.locals = [] then [] else [⟨m.locals.map (·, .pattern), []⟩]

section Commands

variable {P : Content → List Frame → Prop} {outer : List Frame}

theorem Expr.everywhere_scriptOr (fallback : String) (o : Option Expr) :
    Everywhere P outer (Expr.scriptOr [] fallback o) ↔
      ∀ e ∈ o.toList, Everywhere P outer e.argument := by
  cases o with
  | none => simp [Expr.scriptOr]
  | some e => simp [Expr.scriptOr, Expr.argument]

@[simp] theorem Expr.steady_argument (e : Expr) : Steady e.argument := e.steady_script [] true

@[simp] theorem Expr.declared_argument (e : Expr) : declared e.argument = [] :=
  e.declared_script [] true

theorem Motion.steady_and_declared (m : Motion) : Steady m.script ∧ declared m.script = [] := by
  have hblock {s : Script} (h : Steady s) :
      Steady (commandBlock s) ∧ declared (commandBlock s) = [] :=
    ⟨steady_commandBlock h, declared_commandBlock h⟩
  cases m with
  | move amount direction => cases direction <;> simp [script, update]
  | rotate | scale | fade => simp [script, update]
  | bounce | wave | wobble => simp [script]
  | orbit | pulse => exact hblock (by simp [constant, between])
  | spring targetX targetY stiffness damping =>
    simp only [script, steady_append_iff (steady_comment _), declared_append (steady_comment _),
      declared_comment, List.nil_append]
    exact hblock (by cases damping <;> simp [constant])

theorem Motion.steady_script (m : Motion) : Steady m.script := m.steady_and_declared.1

/-- All names of a command are in its arguments, and its pattern may have a scope around them. -/
theorem Motion.everywhere_script (m : Motion) :
    Everywhere P outer m.script ↔
      ∀ e ∈ m.arguments, Everywhere P (m.frames ++ outer) e.argument := by
  cases m with
  | move amount direction => cases direction <;> simp [script, update, arguments, frames, locals]
  | rotate | scale | fade => simp [script, update, arguments, frames, locals]
  | bounce => simp [script, arguments, frames, locals, Expr.everywhere_scriptOr]
  | wave => simp [script, arguments, frames, locals, and_comm]
  | wobble => simp [script, arguments, frames, locals, Expr.everywhere_scriptOr, and_comm]
  | orbit =>
    rw [script, everywhere_commandBlock (by simp [constant, between])]
    simp [constant, between, arguments, frames, locals, and_assoc, and_comm,
      and_left_comm]
  | pulse =>
    rw [script, everywhere_commandBlock (by simp [constant, between])]
    simp [constant, between, arguments, frames, locals, Expr.everywhere_scriptOr, and_assoc,
      and_comm]
  | spring targetX targetY stiffness damping =>
    simp only [script, everywhere_append (steady_comment _)]
    cases damping <;> rw [everywhere_commandBlock (by simp [constant])] <;>
      simp [constant, arguments, frames, locals, Expr.everywhere_scriptOr, or_imp, forall_and,
        and_assoc, and_comm]

theorem Command.steady_script (c : Command) : Steady c.script :=
  (steady_comingFrom c.position).2 c.motion.steady_script

@[simp] theorem Command.steady_scripts (cs : List Command) :
    Steady (cs.flatMap Command.script) := by
  induction cs with
  | nil => exact steady_nil
  | cons c cs ih =>
    rw [List.flatMap_cons]
    exact c.steady_script.append ih

@[simp] theorem Command.declared_scripts (cs : List Command) :
    declared (cs.flatMap Command.script) = [] := by
  induction cs with
  | nil => rfl
  | cons c cs ih =>
    rw [List.flatMap_cons, declared_append c.steady_script, ih, List.append_nil,
      Command.script, declared_comingFrom, c.motion.steady_and_declared.2]

@[simp] theorem Command.everywhere_scripts (cs : List Command) :
    Everywhere P outer (cs.flatMap Command.script) ↔
      ∀ c ∈ cs, Everywhere P outer c.motion.script := by
  induction cs with
  | nil => simp
  | cons c cs ih =>
    rw [List.flatMap_cons, everywhere_append c.steady_script, ih, List.forall_mem_cons,
      Command.script, everywhere_comingFrom]

end Commands

/-! ## Statements -/

section Statements

variable {P : Content → List Frame → Prop} {outer : List Frame}

@[simp] theorem Binding.steady_script (b : Binding) : Steady b.script := by
  simp [script]

@[simp] theorem Binding.declared_script (b : Binding) :
    declared b.script = [(b.name.name, .program)] := by
  simp [script]

@[simp] theorem Binding.everywhere_script (b : Binding) :
    Everywhere P outer b.script ↔
      P (.bind b.name.name .program) outer ∧ Everywhere P outer (b.value.script [] false) := by
  simp [script]

/-- The script of an optional first clause. -/
def Init.scriptOf (init : Option Init) : Script := (init.map Init.script).getD []

@[simp] theorem Init.steady_scriptOf (init : Option Init) : Steady (Init.scriptOf init) := by
  rcases init with _ | b | e
  · exact steady_nil
  · exact b.steady_script
  · exact e.steady_script [] false

@[simp] theorem Init.declared_scriptOf (init : Option Init) :
    declared (Init.scriptOf init) = (Init.names init).map (·, .program) := by
  rcases init with _ | b | e
  · rfl
  · exact b.declared_script
  · exact e.declared_script [] false

/-- The script of an optional last clause. -/
def Expr.scriptOf (update : Option Expr) : Script := (update.map (Expr.script [] false)).getD []

@[simp] theorem Expr.steady_scriptOf (update : Option Expr) : Steady (Expr.scriptOf update) := by
  cases update with
  | none => exact steady_nil
  | some e => exact e.steady_script [] false

@[simp] theorem Expr.declared_scriptOf (update : Option Expr) :
    declared (Expr.scriptOf update) = [] := by
  cases update with
  | none => rfl
  | some e => exact e.declared_script [] false

theorem importComment_eq (ids : List Ident) (path : String) :
    ∃ text, importComment ids path = Script.comment text := by
  cases ids with
  | nil => exact ⟨_, rfl⟩
  | cons id ids => exact ⟨_, rfl⟩

/-- The body of the function of an `animate` block. -/
def animateBody (name : String) (commands : List Command) : Script :=
  line "clear();" ++ (commands.flatMap Command.script ++
    line ("requestAnimationFrame(" ++ name ++ ");"))

theorem animateScript_eq (name : String) (commands : List Command) :
    animateScript name commands = Script.comment "Animation loop" ++ (code "function " ++
      (bind name .pattern ++ (code r"() {" ++ (lineEnd ++
        (braced r"}" (animateBody name commands) ++ line (name ++ "();")))))) := by
  simp [animateScript, animateBody, braced]

@[simp] theorem steady_animateBody (name : String) (commands : List Command) :
    Steady (animateBody name commands) := by
  simp [animateBody]

@[simp] theorem declared_animateBody (name : String) (commands : List Command) :
    declared (animateBody name commands) = [] := by
  simp [animateBody]

@[simp] theorem everywhere_animateBody (name : String) (commands : List Command) :
    Everywhere P outer (animateBody name commands) ↔
      ∀ c ∈ commands, Everywhere P outer c.motion.script := by
  simp [animateBody]

theorem Stmt.script_ifElse_eq (names : Names) (p : Position) (cond : Expr)
    (body alternative : List Stmt) :
    ((Stmt.ifElse p cond body alternative).script names).2 =
      between "if (" r") {" (cond.script [] true) ++ (lineEnd ++
        (braced r"} else {" (Stmt.scripts names body).2 ++
          braced r"}" (Stmt.scripts (Stmt.scripts names body).1 alternative).2)) := by
  simp [Stmt.script, braced]

/-- The parameters and the body of a function. -/
def functionParts (params : List Ident) (body : Script) : Script :=
  between "(" ")" (commaSeparated (params.map fun p => bind p.name .program)) ++ block body

/-- The head and the body of a counted loop. -/
def repeatParts (times : Expr) (body : Script) : Script :=
  code "for (let " ++ bind "__i" .pattern ++ code " = 0; __i < " ++ times.script [] true ++
    code "; __i++)" ++ block body

/-- The clauses and the body of a loop. -/
def forParts (init : Option Init) (cond : Expr) (update : Option Expr) (body : Script) : Script :=
  between "for (" "; " (Init.scriptOf init) ++ cond.script [] true ++
    between "; " ")" (Expr.scriptOf update) ++ block body

section Parts

variable {body : Script} (h : Steady body)
include h

theorem steady_functionParts (params : List Ident) : Steady (functionParts params body) := by
  simp [functionParts, between, h]

theorem declared_functionParts (params : List Ident) :
    declared (functionParts params body) = params.map fun p => (p.name, .program) := by
  simp [functionParts, between, h, List.flatMap_map, ← List.map_eq_flatMap]

theorem steady_repeatParts (times : Expr) : Steady (repeatParts times body) := by
  simp [repeatParts, h]

theorem declared_repeatParts (times : Expr) :
    declared (repeatParts times body) = [("__i", .pattern)] := by
  simp [repeatParts, h]

theorem steady_forParts (init : Option Init) (cond : Expr) (update : Option Expr) :
    Steady (forParts init cond update body) := by
  simp [forParts, h]

theorem declared_forParts (init : Option Init) (cond : Expr) (update : Option Expr) :
    declared (forParts init cond update body) = (Init.names init).map (·, .program) := by
  simp [forParts, h]

theorem everywhere_functionParts (params : List Ident) :
    Everywhere P outer (inScope (functionParts params body)) ↔
      (∀ p ∈ params, P (.bind p.name .program)
        (⟨params.map fun p => (p.name, .program), []⟩ :: outer)) ∧
      Everywhere P (⟨declared body, []⟩ :: ⟨params.map fun p => (p.name, .program), []⟩ :: outer)
        body := by
  rw [everywhere_inScope_of_head "(" (steady_functionParts h params) rfl (by decide),
    declared_functionParts h]
  simp [functionParts, between, h]

theorem everywhere_repeatParts (times : Expr) :
    Everywhere P outer (inScope (repeatParts times body)) ↔
      Everywhere P (⟨[("__i", .pattern)], []⟩ :: outer) (times.script [] true) ∧
      Everywhere P (⟨declared body, []⟩ :: ⟨[("__i", .pattern)], []⟩ :: outer) body := by
  rw [everywhere_inScope_of_head "for (let " (steady_repeatParts h times) rfl (by decide),
    declared_repeatParts h]
  simp [repeatParts, h]

theorem everywhere_forParts (init : Option Init) (cond : Expr) (update : Option Expr) :
    Everywhere P outer (inScope (forParts init cond update body)) ↔
      Everywhere P (⟨(Init.names init).map (·, .program), []⟩ :: outer)
        (Init.scriptOf init) ∧
      Everywhere P (⟨(Init.names init).map (·, .program), []⟩ :: outer)
        (cond.script [] true) ∧
      Everywhere P (⟨(Init.names init).map (·, .program), []⟩ :: outer)
        (Expr.scriptOf update) ∧
      Everywhere P (⟨declared body, []⟩ ::
        ⟨(Init.names init).map (·, .program), []⟩ :: outer) body := by
  rw [everywhere_inScope_of_head "for (" (steady_forParts h init cond update) rfl (by decide),
    declared_forParts h]
  simp [forParts, h]

end Parts

mutual

theorem Stmt.steady_script (names : Names) : ∀ s : Stmt, Steady (s.script names).2
  | .binding b => by simp [Stmt.script]
  | .function _ name params body => by
    have hparts := steady_functionParts (Stmt.steady_scripts names body) params
    exact (steady_code _).append ((steady_bind _ _).append
      (steady_inScope_of_head "(" hparts rfl (by decide)))
  | .ret _ none => steady_line _
  | .ret _ (some value) => by simp [Stmt.script]
  | .ifThen _ cond body | .whileLoop _ cond body => by
    simp [Stmt.script, Stmt.steady_scripts names body]
  | .ifElse _ cond body alternative => by
    have hbody := Stmt.steady_scripts names body
    have halternative := Stmt.steady_scripts (Stmt.scripts names body).1 alternative
    rw [Stmt.script_ifElse_eq]
    simp [hbody, halternative]
  | .repeatLoop _ times body =>
    steady_inScope_of_head "for (let " (steady_repeatParts (Stmt.steady_scripts names body) times)
      rfl (by decide)
  | .forLoop _ init cond update body =>
    steady_inScope_of_head "for ("
      (steady_forParts (Stmt.steady_scripts names body) init cond update) rfl (by decide)
  | .importFrom _ ids path => by
    obtain ⟨text, heq⟩ := importComment_eq ids path
    simp [Stmt.script, heq]
  | .scene _ name body => by
    simp [Stmt.script, Stmt.steady_scripts _ body]
  | .animate _ commands => by
    simp [Stmt.script, animateScript_eq]
  | .expr e => by simp [Stmt.script]

theorem Stmt.steady_scripts (names : Names) : ∀ ss : List Stmt, Steady (Stmt.scripts names ss).2
  | [] => steady_nil
  | s :: ss => by
    simp [Stmt.scripts, Stmt.steady_script names s, Stmt.steady_scripts _ ss]

end

attribute [simp] Stmt.steady_script Stmt.steady_scripts

/-- The names that a statement declares where it stands, with who chose them. -/
def Stmt.declares (names : Names) : Stmt → List (String × Owner)
  | .binding b => [(b.name.name, .program)]
  | .function _ name _ _ => [(name.name, .program)]
  | .scene _ name _ => [(names.sceneName name, .pattern)]
  | .animate _ _ => [(names.animationName, .pattern)]
  | _ => []

theorem Stmt.declared_script (names : Names) (s : Stmt) :
    declared (s.script names).2 = s.declares names := by
  cases s with
  | binding | ifThen | whileLoop | expr | scene => simp [Stmt.script, declares]
  | function p name params body =>
    have hparts := steady_functionParts (Stmt.steady_scripts names body) params
    simp only [Stmt.script, declared_append ((steady_code _).append (steady_bind _ _))]
    rw [← functionParts, declared_inScope hparts]
    rfl
  | ret p value => cases value <;> simp [Stmt.script, declares]
  | ifElse p cond body alternative =>
    rw [Stmt.script_ifElse_eq]
    simp [declares]
  | repeatLoop p times body =>
    exact declared_inScope (steady_repeatParts (Stmt.steady_scripts names body) times)
  | forLoop p init cond update body =>
    exact declared_inScope (steady_forParts (Stmt.steady_scripts names body) init cond update)
  | importFrom p ids path =>
    obtain ⟨text, heq⟩ := importComment_eq ids path
    simp [Stmt.script, heq, declares]
  | animate p commands =>
    simp [Stmt.script, animateScript_eq, declares]

theorem Stmt.declared_scripts_cons (names : Names) (s : Stmt) (ss : List Stmt) :
    declared (Stmt.scripts names (s :: ss)).2 =
      s.declares names ++ declared (Stmt.scripts (s.script names).1 ss).2 := by
  simp [Stmt.scripts, Stmt.declared_script]

theorem Stmt.mem_declared_scripts {n : String} (names : Names) (ss : List Stmt) :
    (n, Owner.program) ∈ declared (Stmt.scripts names ss).2 ↔ n ∈ Stmt.declaredBy ss := by
  induction ss generalizing names with
  | nil => simp [Stmt.scripts, declaredBy]
  | cons s ss ih =>
    rw [Stmt.declared_scripts_cons, List.mem_append, ih, declaredBy_cons, List.mem_append]
    refine or_congr_left ?_
    cases s <;> simp [declares, ownNames]

theorem Script.Names.sceneName_cases (names : Names) (scene : String) :
    names.sceneName scene = "scene_" ++ scene ∨
      ∃ n : Nat, names.sceneName scene = "scene_" ++ scene ++ toString n := by
  unfold sceneName
  simp only
  split
  · cases h : List.find? _ _ with
    | none => exact .inl rfl
    | some name =>
      obtain ⟨n, -, rfl⟩ := List.mem_map.1 (List.mem_of_find?_eq_some h)
      exact .inr ⟨n, rfl⟩
  · exact .inl rfl

theorem Script.Names.animationName_cases (names : Names) :
    names.animationName = "animate" ∨ ∃ n : Nat, names.animationName = "animate" ++ toString n := by
  unfold animationName
  split
  · exact .inl rfl
  · exact .inr ⟨_, rfl⟩

theorem Script.Names.sceneName_eq (names : Names) (scene : String) :
    ∃ rest, names.sceneName scene = "scene_" ++ rest := by
  rcases names.sceneName_cases scene with h | ⟨n, h⟩
  · exact ⟨scene, h⟩
  · exact ⟨scene ++ toString n, h.trans (String.append_assoc ..)⟩

theorem Script.Names.animationName_eq (names : Names) :
    ∃ rest, names.animationName = "animate" ++ rest := by
  rcases names.animationName_cases with h | ⟨n, h⟩
  · exact ⟨"", h⟩
  · exact ⟨_, h⟩

/-- The functions of scenes and animations have names of their own kind. -/
theorem Stmt.eq_of_mem_declared_scripts {n : String} {names : Names} {ss : List Stmt}
    (h : (n, Owner.pattern) ∈ declared (Stmt.scripts names ss).2) :
    ∃ rest, n = "scene_" ++ rest ∨ n = "animate" ++ rest := by
  induction ss generalizing names with
  | nil => simp [Stmt.scripts] at h
  | cons s ss ih =>
    rw [Stmt.declared_scripts_cons, List.mem_append] at h
    rcases h with h | h
    · cases s <;> simp [declares] at h
      case scene =>
        obtain ⟨rest, hrest⟩ := names.sceneName_eq _
        exact ⟨rest, .inl (h.trans hrest)⟩
      case animate =>
        obtain ⟨rest, hrest⟩ := names.animationName_eq
        exact ⟨rest, .inr (h.trans hrest)⟩
    · exact ih h

/-! ### All names of a statement -/

/-- The function names after that of a scene is given out. -/
def Script.Names.withScene (names : Names) (scene : String) : Names :=
  { names with scenes := names.sceneName scene :: names.scenes }

/-- The frame of the body of a statement. -/
def Stmt.bodyFrame (names : Names) (body : List Stmt) : Frame :=
  ⟨declared (Stmt.scripts names body).2, []⟩

/-- The frame of the parameters of a function. -/
def paramFrame (params : List Ident) : Frame := ⟨params.map fun p => (p.name, .program), []⟩

/-- The frame of the clauses of a loop. -/
def Init.frame (init : Option Init) : Frame := ⟨(Init.names init).map (·, .program), []⟩

/-- The frame of a counted loop. -/
def repeatFrame : Frame := ⟨[("__i", .pattern)], []⟩

variable (names : Names)

/-- The frame of the head of a statement, if it has one. -/
def Stmt.headFrames : Stmt → List Frame
  | .function _ _ params _ => [paramFrame params]
  | .repeatLoop .. => [repeatFrame]
  | .forLoop _ init _ _ _ => [Init.frame init]
  | _ => []

/-- The bodies of a statement with the function names given out before each. -/
def Stmt.namedBodies (names : Names) : Stmt → List (Names × List Stmt)
  | .function _ _ _ body | .ifThen _ _ body | .repeatLoop _ _ body | .whileLoop _ _ body
  | .forLoop _ _ _ _ body => [(names, body)]
  | .ifElse _ _ body alternative => [(names, body), ((Stmt.scripts names body).1, alternative)]
  | .scene _ name body => [(names.withScene name, body)]
  | _ => []

theorem Stmt.map_snd_namedBodies (s : Stmt) : (s.namedBodies names).map Prod.snd = s.bodies := by
  cases s <;> rfl

theorem Expr.everywhere_script (e : Expr) (nested : Bool) :
    Everywhere P outer (e.script [] nested) ↔ Everywhere P outer e.argument := by
  rw [Everywhere, Collects.occurrences.script_nested, Everywhere, Expr.argument]

theorem Expr.everywhere_scriptOf (o : Option Expr) :
    Everywhere P outer (Expr.scriptOf o) ↔ ∀ e ∈ o.toList, Everywhere P outer e.argument := by
  cases o with
  | none => simp [Expr.scriptOf]
  | some e => simp [Expr.scriptOf, Expr.everywhere_script]

theorem Init.everywhere_scriptOf (init : Option Init) :
    Everywhere P outer (Init.scriptOf init) ↔
      (∀ n ∈ Init.names init, P (.bind n .program) outer) ∧
      ∀ e ∈ Init.exprs init, Everywhere P outer e.argument := by
  rcases init with _ | b | e <;>
    simp [Init.scriptOf, Init.script, Init.names, Init.exprs, Expr.everywhere_script]

/-- All names of a statement: the names it declares where it stands, and, with a frame around them
if the statement has a head, the names of that head, the expressions and the bodies. -/
theorem Stmt.everywhere_script (s : Stmt) :
    Everywhere P outer (s.script names).2 ↔
      (∀ n ∈ s.ownNames, P (.bind n .program) outer) ∧
      (∀ n ∈ s.headNames, P (.bind n .program) (s.headFrames ++ outer)) ∧
      (∀ e ∈ s.exprs, Everywhere P (s.headFrames ++ outer) e.argument) ∧
      (∀ c ∈ s.commands, ∀ e ∈ c.motion.arguments,
        Everywhere P (c.motion.frames ++ ⟨[], []⟩ :: outer) e.argument) ∧
      ∀ q ∈ s.namedBodies names, Everywhere P (Stmt.bodyFrame q.1 q.2 :: (s.headFrames ++ outer))
        (Stmt.scripts q.1 q.2).2 := by
  cases s with
  | binding | ifThen | whileLoop | scene | expr =>
    simp [Stmt.script, bodyFrame, Names.withScene, Expr.everywhere_script, ownNames, headNames, exprs,
      commands, namedBodies, headFrames]
  | function p name params body =>
    simp only [Stmt.script, everywhere_append ((steady_code _).append (steady_bind _ _)),
      everywhere_append (steady_code _)]
    rw [← functionParts, everywhere_functionParts (Stmt.steady_scripts names body)]
    simp [bodyFrame, paramFrame, ownNames, headNames, exprs, commands, namedBodies, headFrames]
  | ret p value =>
    cases value <;>
      simp [Stmt.script, Expr.everywhere_script, ownNames, headNames, exprs, commands, namedBodies,
        headFrames]
  | ifElse p cond body alternative =>
    rw [Stmt.script_ifElse_eq]
    simp [bodyFrame, Expr.everywhere_script, ownNames, headNames, exprs, commands, namedBodies,
      headFrames]
  | repeatLoop p times body =>
    refine (everywhere_repeatParts (Stmt.steady_scripts names body) times).trans ?_
    simp [bodyFrame, repeatFrame, Expr.everywhere_script, ownNames, headNames, exprs, commands,
      namedBodies, headFrames]
  | forLoop p init cond update body =>
    refine (everywhere_forParts (Stmt.steady_scripts names body) init cond update).trans ?_
    rw [Init.everywhere_scriptOf, Expr.everywhere_script, Expr.everywhere_scriptOf]
    simp [bodyFrame, Init.frame, ownNames, headNames, exprs, commands, namedBodies, headFrames,
      or_imp, forall_and, and_assoc]
  | importFrom p ids path =>
    obtain ⟨text, heq⟩ := importComment_eq ids path
    simp [Stmt.script, heq, ownNames, headNames, exprs, commands, namedBodies]
  | animate p commands =>
    simp [Stmt.script, animateScript_eq, ownNames, headNames, exprs, Stmt.commands, namedBodies,
      Motion.everywhere_script]

theorem Stmt.everywhere_scripts_cons (s : Stmt) (ss : List Stmt) :
    Everywhere P outer (Stmt.scripts names (s :: ss)).2 ↔
      Everywhere P outer (s.script names).2 ∧
      Everywhere P outer (Stmt.scripts (s.script names).1 ss).2 := by
  simp [Stmt.scripts]

/-- What the names of each statement amount to, those of all statements do. -/
theorem Stmt.everywhere_scripts {Q : Stmt → Prop} {ss : List Stmt}
    (h : ∀ s ∈ ss, ∀ names, Everywhere P outer (s.script names).2 ↔ Q s) (names : Names) :
    Everywhere P outer (Stmt.scripts names ss).2 ↔ ∀ s ∈ ss, Q s := by
  induction ss generalizing names with
  | nil => simp [Stmt.scripts]
  | cons s ss ih =>
    obtain ⟨hs, hss⟩ := List.forall_mem_cons.1 h
    rw [Stmt.everywhere_scripts_cons, hs names, ih hss, List.forall_mem_cons]

end Statements

/-! ## Programs -/

section Programs

variable {P : Content → List Frame → Prop} {c : Content}

theorem Script.mem_contents_ofText {text : String} (h : c ∈ contents (ofText text)) :
    (∃ piece, c = .code piece) ∨ c = .lineEnd := by
  obtain ⟨i, hi, rfl⟩ := List.mem_map.1 h
  obtain ⟨hmem, hlayout⟩ := List.mem_filter.1 hi
  obtain ⟨cs, -, hcs⟩ := List.mem_flatMap.1 hmem
  unfold ofTextLine at hcs
  split at hcs
  · rw [List.mem_singleton.1 hcs] at hlayout
    cases hlayout
  · simp only at hcs
    split at hcs
    · rw [List.mem_singleton.1 hcs] at hlayout
      cases hlayout
    · rcases List.mem_pair.1 hcs with rfl | rfl
      · exact .inl ⟨_, rfl⟩
      · exact .inr rfl

/-- A fixed text has no names of the program and no scopes. -/
theorem Script.steady_ofText (text : String) : Steady (ofText text) := by
  refine steady_of_forall_ne fun c hc => ?_
  rcases mem_contents_ofText hc with ⟨piece, rfl⟩ | rfl <;> simp

theorem Script.occurrences_ofText (text : String) : occurrences (ofText text) = [] := by
  have hplain : ∀ c ∈ contents (ofText text), c.isName = false := by
    intro c hc
    rcases mem_contents_ofText hc with ⟨piece, rfl⟩ | rfl <;> rfl
  have hscopes : ∀ c ∈ contents (ofText text), c ≠ .enter ∧ c ≠ .leave := by
    intro c hc
    rcases mem_contents_ofText hc with ⟨piece, rfl⟩ | rfl <;> simp
  rw [occurrences, occurrencesBefore, located_of_forall_ne hscopes, List.filter_eq_nil_iff]
  rintro ⟨c, fs⟩ hc
  obtain ⟨c', hc', heq⟩ := List.mem_map.1 hc
  cases heq
  simp [hplain c hc']

theorem Script.everywhere_congr {s s' : Script} (h : contents s = contents s')
    (outer : List Frame) : Everywhere P outer s ↔ Everywhere P outer s' := by
  rw [Everywhere, occurrences, occurrencesBefore, h]
  rfl

/-- In every style the script of a program is the prelude and the main function. -/
theorem Program.contents_script (style : Style) (p : Program) :
    contents (p.script style) =
      contents (prelude style.canvasId style.fps ++ (code "(function " ++ (bind "main" .pattern ++
        (code r"() {" ++ (lineEnd ++ braced r"})();" (Stmt.scripts {} p).2))))) := by
  have hstyle : contents (p.script style) =
      contents (p.fullScript style.canvasId style.fps) := by
    unfold Program.script
    split <;> simp
  rw [hstyle]
  simp [Program.fullScript, braced]

/-- All names of the script of a program, in whatever style, are in its main function. -/
theorem Program.everywhere_script (style : Style) (p : Program) :
    Everywhere P [] (p.script style) ↔
      Everywhere P [Stmt.bodyFrame {} p] (Stmt.scripts {} p).2 := by
  have hprelude := steady_ofText (preludeText (escapeQuotes style.canvasId) (tick style.fps))
  rw [everywhere_congr (p.contents_script style), prelude, everywhere_append hprelude]
  simp [everywhere_of_occurrences_eq_nil (occurrences_ofText _), Stmt.bodyFrame]

end Programs

end Easel
