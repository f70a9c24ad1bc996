import Easel.Compilation
import Easel.Proofs.Script.Everywhere
import Easel.Proofs.Script.Hygiene

/-!
# Names of the patterns of statements

A counted loop declares `__i`, and the commands `orbit`, `pulse` and `spring` declare constants.
Unlike drawing functions they do not rename what they enclose.  So the script of a program hides a
name of the program behind one of these exactly if a counted loop shows `__i` or a command shows
one of its own constants: `unhidden_script_iff`.
-/

namespace Easel

open Script

/-- The names that the patterns of statements and commands declare. -/
def patternNames : List String :=
  ["__i", "orbitAngle", "pulseValue", "springStiffness", "dx", "dy"]

/-- No scope around declares the name for a pattern. -/
def Script.Free (outer : List Frame) (n : String) : Prop :=
  ∀ f ∈ outer, (n, Owner.pattern) ∉ f.declared

/-- The name is none of the patterns of statements, or no scope around declares it for a pattern. -/
def Script.Unhidden (c : Content) (outer : List Frame) : Prop :=
  c.text ∈ patternNames → Free outer c.text

section Free

variable {n : String} {outer : List Frame}

theorem not_mem_dollar_of_mem_patternNames (h : n ∈ patternNames) : '$' ∉ n.toList := by
  revert n
  decide

theorem not_mem_drawingLocals_of_mem_patternNames (h : n ∈ patternNames) :
    n ∉ drawingLocals := by
  revert n
  decide

theorem free_cons (f : Frame) :
    Free (f :: outer) n ↔ (n, Owner.pattern) ∉ f.declared ∧ Free outer n :=
  List.forall_mem_cons

theorem free_bodyFrame_cons (h : n ∈ patternNames) (names : Names) (body : List Stmt) :
    Free (Stmt.bodyFrame names body :: outer) n ↔ Free outer n := by
  rw [free_cons]
  refine and_iff_right fun hmem => ?_
  obtain ⟨rest, hn⟩ := Stmt.eq_of_mem_declared_scripts hmem
  have hstart : ∀ m ∈ patternNames,
      ¬ "scene_".toList <+: m.toList ∧ ¬ "animate".toList <+: m.toList := by
    decide
  rcases hn with rfl | rfl
  · exact (hstart _ h).1 (by simp)
  · exact (hstart _ h).2 (by simp)

/-- The names that a statement declares for its pattern. -/
def Stmt.patternLocals : Stmt → List String
  | .repeatLoop .. => ["__i"]
  | _ => []

theorem Stmt.free_headFrames (s : Stmt) :
    Free (s.headFrames ++ outer) n ↔ n ∉ s.patternLocals ∧ Free outer n := by
  cases s <;> simp [headFrames, patternLocals, Free, paramFrame, Init.frame, repeatFrame]

theorem Motion.free_frames (m : Motion) :
    Free (m.frames ++ ⟨[], []⟩ :: outer) n ↔ n ∉ m.locals ∧ Free outer n := by
  cases m <;> simp [frames, locals, Free]

end Free

/-! ## Expressions -/

/-- A name of a pattern is shown as it is. -/
theorem Expr.Uses.spelling_eq_of_mem {e : Expr} {n spelling : String} {fs : List Frame}
    (h : e.Uses [] n spelling fs) (hn : n ∈ patternNames) : spelling = n := by
  rw [h.spelling_eq_spellingIn,
    spellingIn_of_not_mem fs (not_mem_drawingLocals_of_mem_patternNames hn)]

/-- What is shown as a name of a pattern is that name, and drawing functions do not declare it. -/
theorem Expr.Uses.eq_of_spelling_mem {e : Expr} {n spelling : String} {fs : List Frame}
    (h : e.Uses [] n spelling fs) (hs : spelling ∈ patternNames) : n = spelling ∧ Free fs n := by
  have hdollar := not_mem_dollar_of_mem_patternNames hs
  have hlocal := not_mem_drawingLocals_of_mem_patternNames hs
  have hn : spelling = n := by
    have hspelling := h.spelling_eq_spellingIn
    unfold spellingIn at hspelling
    split_ifs at hspelling
    · exact absurd hspelling (ne_captureName hdollar)
    · exact hspelling
  subst hn
  refine ⟨rfl, fun f hf hmem => ?_⟩
  obtain ⟨s, captured, rfl⟩ := h.exists_frame f hf
  exact s.not_mem_declared_frame captured hdollar hlocal (List.mem_map_of_mem hmem)

theorem Expr.everywhere_unhidden (e : Expr) (outer : List Frame) :
    Everywhere Unhidden outer e.argument ↔ ∀ n ∈ patternNames, e.Shows n → Free outer n := by
  constructor
  · rintro h n hn ⟨spelling, fs, huses⟩
    cases huses.spelling_eq_of_mem hn
    have hfree := h _ (Expr.mem_occurrences_script.2 ⟨_, _, _, rfl, huses⟩) hn
    exact fun f hf => hfree f (List.mem_append_right _ hf)
  · intro h x hx hmem
    obtain ⟨n, spelling, fs, rfl, huses⟩ := Expr.mem_occurrences_script.1 hx
    obtain ⟨rfl, hfs⟩ := huses.eq_of_spelling_mem hmem
    exact List.forall_mem_append.2 ⟨hfs, h n hmem ⟨n, fs, huses⟩⟩

/-! ## Statements -/

/-- The statement shows the name, also inside its bodies. -/
inductive Stmt.Shows (n : String) : Stmt → Prop
  | own {s : Stmt} (h : n ∈ s.ownNames) : Shows n s
  | head {s : Stmt} (h : n ∈ s.headNames) : Shows n s
  | expr {s : Stmt} {e : Expr} (he : e ∈ s.exprs) (h : e.Shows n) : Shows n s
  | argument {s : Stmt} {c : Command} {e : Expr} (hc : c ∈ s.commands)
      (he : e ∈ c.motion.arguments) (h : e.Shows n) : Shows n s
  | inner {s s' : Stmt} {body : List Stmt} (hbody : body ∈ s.bodies) (hs : s' ∈ body)
      (h : Shows n s') : Shows n s

/-- The statement is among statements or in their bodies. -/
inductive Stmt.Within (s : Stmt) : List Stmt → Prop
  | here {ss : List Stmt} (h : s ∈ ss) : Within s ss
  | inner {ss body : List Stmt} {s' : Stmt} (hs : s' ∈ ss) (hbody : body ∈ s'.bodies)
      (h : Within s body) : Within s ss

/-- A counted loop does not show `__i`, and no argument of a command shows a constant of the
command. -/
structure Stmt.Clear (s : Stmt) : Prop where
  loop : ∀ n ∈ s.patternLocals, ¬ s.Shows n
  command : ∀ c ∈ s.commands, ∀ n ∈ c.motion.locals, ∀ e ∈ c.motion.arguments, ¬ e.Shows n

/-- The statement and the statements inside it are clear. -/
def Stmt.ClearInside (s : Stmt) : Prop := ∀ s' : Stmt, s'.Within [s] → s'.Clear

theorem Stmt.within_iff {s : Stmt} {ss : List Stmt} :
    s.Within ss ↔ ∃ s' ∈ ss, s.Within [s'] := by
  constructor
  · intro h
    cases h with
    | here h => exact ⟨s, h, .here (List.mem_singleton_self s)⟩
    | inner hs hbody h => exact ⟨_, hs, .inner (List.mem_singleton_self _) hbody h⟩
  · rintro ⟨s', hs', h⟩
    cases h with
    | here h => exact .here (List.mem_singleton.1 h ▸ hs')
    | inner hs hbody h => exact .inner (List.mem_singleton.1 hs ▸ hs') hbody h

theorem Stmt.clearInside_iff (s : Stmt) :
    s.ClearInside ↔ s.Clear ∧ ∀ body ∈ s.bodies, ∀ s' ∈ body, s'.ClearInside := by
  constructor
  · intro h
    refine ⟨h s (.here (List.mem_singleton_self s)), fun body hbody s' hs' s'' hs'' => ?_⟩
    exact h s'' (.inner (List.mem_singleton_self s) hbody (within_iff.2 ⟨s', hs', hs''⟩))
  · rintro ⟨hclear, hbodies⟩ s' hs'
    cases hs' with
    | here h => exact List.mem_singleton.1 h ▸ hclear
    | inner hs hbody h =>
      cases List.mem_singleton.1 hs
      obtain ⟨s'', hs'', hwithin⟩ := within_iff.1 h
      exact hbodies _ hbody s'' hs'' s' hwithin

theorem Motion.locals_subset (m : Motion) : m.locals ⊆ patternNames := by
  cases m <;> simp [locals, patternNames]

theorem Stmt.patternLocals_subset (s : Stmt) : s.patternLocals ⊆ patternNames := by
  cases s <;> simp [patternLocals, patternNames]

theorem Stmt.eq_nil_of_mem_patternLocals {s : Stmt} {n : String} (h : n ∈ s.patternLocals) :
    s.ownNames = [] ∧ s.commands = [] := by
  cases s with
  | repeatLoop => exact ⟨rfl, rfl⟩
  | _ => cases h

/-- One statement: what is in its bodies is to be free of the names of its pattern as well. -/
theorem Stmt.forall_parts_iff (s : Stmt) (outer : List Frame) :
    ((∀ n ∈ s.ownNames, n ∈ patternNames → Free outer n) ∧
      (∀ n ∈ s.headNames, n ∈ patternNames → n ∉ s.patternLocals ∧ Free outer n) ∧
      (∀ e ∈ s.exprs, ∀ n ∈ patternNames, e.Shows n → n ∉ s.patternLocals ∧ Free outer n) ∧
      (∀ c ∈ s.commands, ∀ e ∈ c.motion.arguments, ∀ n ∈ patternNames, e.Shows n →
        n ∉ c.motion.locals ∧ Free outer n) ∧
      ∀ body ∈ s.bodies, ∀ s' ∈ body, ∀ n ∈ patternNames, s'.Shows n →
        n ∉ s.patternLocals ∧ Free outer n) ↔
      (∀ n ∈ patternNames, s.Shows n → Free outer n) ∧ s.Clear := by
  constructor
  · rintro ⟨hown, hhead, hexprs, hcommands, hbodies⟩
    refine ⟨fun n hn hshows => ?_, fun n hlocal hshows => ?_, fun c hc n hlocal e he hshows => ?_⟩
    · cases hshows with
      | own h => exact hown n h hn
      | head h => exact (hhead n h hn).2
      | expr he h => exact (hexprs _ he n hn h).2
      | argument hc he h => exact (hcommands _ hc _ he n hn h).2
      | inner hbody hs h => exact (hbodies _ hbody _ hs n hn h).2
    · have hn := s.patternLocals_subset hlocal
      obtain ⟨hownNil, hcommandsNil⟩ := s.eq_nil_of_mem_patternLocals hlocal
      cases hshows with
      | own h => exact absurd (hownNil ▸ h) List.not_mem_nil
      | head h => exact (hhead n h hn).1 hlocal
      | expr he h => exact (hexprs _ he n hn h).1 hlocal
      | argument hc _ _ => exact absurd (hcommandsNil ▸ hc) List.not_mem_nil
      | inner hbody hs h => exact (hbodies _ hbody _ hs n hn h).1 hlocal
    · exact (hcommands c hc e he n (c.motion.locals_subset hlocal) hshows).1 hlocal
  · rintro ⟨hfree, hclear⟩
    have hboth : ∀ n ∈ patternNames, s.Shows n → n ∉ s.patternLocals ∧ Free outer n :=
      fun n hn hshows => ⟨fun hlocal => hclear.loop n hlocal hshows, hfree n hn hshows⟩
    refine ⟨fun n h hn => hfree n hn (.own h), fun n h hn => hboth n hn (.head h),
      fun e he n hn h => hboth n hn (.expr he h), fun c hc e he n hn h => ⟨fun hlocal => ?_, ?_⟩,
      fun body hbody s' hs n hn h => hboth n hn (.inner hbody hs h)⟩
    · exact hclear.command c hc n hlocal e he h
    · exact hfree n hn (.argument hc he h)

theorem Stmt.everywhere_unhidden (s : Stmt) (names : Names) (outer : List Frame) :
    Everywhere Unhidden outer (s.script names).2 ↔
      (∀ n ∈ patternNames, s.Shows n → Free outer n) ∧ s.ClearInside := by
  induction s using Stmt.bodies_induction generalizing names outer with
  | h s ih => ?_
  have hbodies : (∀ q ∈ s.namedBodies names,
      Everywhere Unhidden (Stmt.bodyFrame q.1 q.2 :: (s.headFrames ++ outer))
        (Stmt.scripts q.1 q.2).2) ↔
      ∀ body ∈ s.bodies, ∀ s' ∈ body,
        (∀ n ∈ patternNames, s'.Shows n → n ∉ s.patternLocals ∧ Free outer n) ∧
          s'.ClearInside := by
    rw [← s.map_snd_namedBodies names, List.forall_mem_map]
    refine forall₂_congr fun q hq => Stmt.everywhere_scripts (fun s' hs' names' => ?_) q.1
    have hq : q.2 ∈ s.bodies := s.map_snd_namedBodies names ▸ List.mem_map_of_mem hq
    rw [ih q.2 hq s' hs']
    refine and_congr_left' (forall₂_congr fun n hn => ?_)
    rw [free_bodyFrame_cons hn, s.free_headFrames]
  have hparts := s.forall_parts_iff outer
  rw [Stmt.everywhere_script, hbodies, Stmt.clearInside_iff]
  simp only [Expr.everywhere_unhidden, s.free_headFrames, Motion.free_frames, Unhidden,
    Content.text]
  constructor
  · rintro ⟨hown, hhead, hexprs, hcommands, hinner⟩
    obtain ⟨hfree, hclear⟩ := hparts.1 ⟨hown, hhead, hexprs, hcommands,
      fun body hbody s' hs' => (hinner body hbody s' hs').1⟩
    exact ⟨hfree, hclear, fun body hbody s' hs' => (hinner body hbody s' hs').2⟩
  · rintro ⟨hfree, hclear, hinner⟩
    obtain ⟨hown, hhead, hexprs, hcommands, hshown⟩ := hparts.2 ⟨hfree, hclear⟩
    exact ⟨hown, hhead, hexprs, hcommands, fun body hbody s' hs' =>
      ⟨hshown body hbody s' hs', hinner body hbody s' hs'⟩⟩

/-- No name of a program is hidden behind a name of the pattern of a statement or command exactly if
no counted loop shows `__i`, in its number or its body, and no argument of an orbit, a pulse or a
spring shows a constant of that command. -/
theorem unhidden_script_iff (style : Style) (p : Program) :
    (∀ x ∈ occurrences (p.script style), x.1.text ∈ patternNames →
      ∀ f ∈ x.2, (x.1.text, Owner.pattern) ∉ f.declared) ↔
      ∀ s : Stmt, s.Within p → s.Clear := by
  have hscript := Program.everywhere_script (P := Unhidden) style p
  have hbody : Everywhere Unhidden [Stmt.bodyFrame {} p] (Stmt.scripts {} p).2 ↔ _ :=
    Stmt.everywhere_scripts (fun s _ names => s.everywhere_unhidden names _) {}
  have hfree : ∀ n ∈ patternNames, Free [Stmt.bodyFrame {} p] n := fun n hn =>
    (free_bodyFrame_cons hn {} p).2 (List.forall_mem_nil _)
  rw [hbody] at hscript
  simp only [Everywhere, List.append_nil] at hscript
  refine hscript.trans ⟨fun h s hs => ?_,
    fun h s hs => ⟨fun n hn _ => hfree n hn, fun s' hs' => ?_⟩⟩
  · obtain ⟨s', hs', hwithin⟩ := Stmt.within_iff.1 hs
    exact (h s' hs').2 s hwithin
  · exact h s' (Stmt.within_iff.2 ⟨s, hs, hs'⟩)

/-- A name of the program behind a constant of a spring, in a source without faults. -/
theorem unhidden_script_iff_spring :
    let source := "let dx = true\nanimate { spring dx dx }"
    let p := (Checkup.ofSource source).program
    check source = [] ∧
      ¬ ∀ x ∈ occurrences (p.script {}), x.1.text ∈ patternNames →
        ∀ f ∈ x.2, (x.1.text, Owner.pattern) ∉ f.declared := by
  intro source p
  have hp : p = [.binding ⟨⟨1, 1⟩, ⟨⟨1, 5⟩, "dx"⟩, .bool ⟨1, 10⟩ true⟩,
      .animate ⟨2, 1⟩ [⟨⟨2, 11⟩, .spring (.ident ⟨⟨2, 18⟩, "dx"⟩) (.ident ⟨⟨2, 21⟩, "dx"⟩)
        none none⟩]] := by
    dsimp only [p, source]
    eq_refl
  refine ⟨by decide +kernel, ?_⟩
  rw [unhidden_script_iff, hp]
  intro h
  have hclear := h (.animate _ _) (.here (.tail _ (.head _)))
  exact hclear.command _ (.head _) "dx" (by decide) _ (.head _) ⟨_, _, .ident _⟩

end Easel
