import Easel.Compilation
import Easel.Proofs.Scope.Visible
import Easel.Proofs.Script.Everywhere

/-!
# Names in scripts are declared around them

What the analysis lets pass is not always in scope where the script has it: a body of a conditional
or a loop is a scope of the script, but not of the analysis.  All other names of an analysed program
are visible where they stand in its script, and all names are if the program sees them in the scopes
that the script has (`visible_script`).
-/

namespace Easel

open Script

/-- A scope around declares the name for the program. -/
def Script.Declares (fs : List Frame) (n : String) : Prop :=
  ∃ f ∈ fs, (n, Owner.program) ∈ f.declared

/-- The name is builtin, or a scope around declares it for the program, or a drawing function around
has a parameter for it. -/
def Script.Visible (n spelling : String) (fs : List Frame) : Prop :=
  isBuiltin spelling = true ∨ Declares fs spelling ∨
    spelling = captureName n ∧ ∃ f ∈ fs, (f.argument? spelling).isSome = true

/-- A use of a name other than the given ones is one of a visible name. -/
def Script.Seen (except : List String) : Content → List Frame → Prop
  | .use n spelling, fs => n ∈ except ∨ Visible n spelling fs
  | _, _ => True

/-! ## Expressions -/

section Expressions

variable {captured : List String} {e : Expr} {n spelling : String} {fs outer : List Frame}

theorem declares_append : Declares (fs ++ outer) n ↔ Declares fs n ∨ Declares outer n := by
  simp [Declares, or_and_right, exists_or]

/-- A captured name is shown outside the drawing functions as well. -/
theorem Expr.Uses.outside (h : e.Uses captured n spelling fs) (hn : n ∈ drawingLocals) :
    e.Uses captured n (spell captured n) [] := by
  induction h with
  | ident id => exact .ident id
  | child hc _ ih => exact .child hc (ih hn)
  | field hf h _ =>
    obtain ⟨id, hid, rfl⟩ := h.exists_mem_reads
    exact .argument (Shape.mem_captured.2 ⟨hn, _, hf, id, hid, rfl⟩)
  | argument hcaptured => exact .argument hcaptured

theorem Expr.Uses.not_declares (h : e.Uses captured n spelling fs) (m : String) :
    ¬ Declares fs m := by
  rintro ⟨f, hf, hmem⟩
  obtain ⟨s, captured', rfl⟩ := h.exists_frame f hf
  simp [Shape.frame] at hmem

theorem ne_captureName_self (n : String) : n ≠ captureName n := by
  intro h
  have hlength := congrArg String.length h
  simp [captureName] at hlength

theorem visible_self : Visible n n fs ↔ isBuiltin n = true ∨ Declares fs n := by
  simp [Visible, ne_captureName_self]

theorem Expr.everywhere_seen (e : Expr) (except : List String) (outer : List Frame) :
    Everywhere (Seen except) outer e.argument ↔
      ∀ n, e.Shows n → n ∈ except ∨ isBuiltin n = true ∨ Declares outer n := by
  constructor
  · rintro h n ⟨spelling, fs, huses⟩
    -- Outside the drawing functions the name is shown as it is.
    obtain ⟨fs, huses⟩ : ∃ fs, e.Uses [] n n fs := by
      by_cases hn : n ∈ drawingLocals
      · exact ⟨[], huses.outside hn⟩
      · rw [huses.spelling_eq_spellingIn, spellingIn_of_not_mem fs hn] at huses
        exact ⟨fs, huses⟩
    have hseen : Seen except (.use n n) (fs ++ outer) :=
      h _ (Expr.mem_occurrences_script.2 ⟨_, _, _, rfl, huses⟩)
    rw [Seen, visible_self, declares_append] at hseen
    exact hseen.imp_right (Or.imp_right fun h => h.resolve_left (huses.not_declares n))
  · intro h x hx
    obtain ⟨n, spelling, fs, rfl, huses⟩ := Expr.mem_occurrences_script.1 hx
    have hspelling := huses.spelling_eq_spellingIn
    unfold spellingIn at hspelling
    split_ifs at hspelling with hn
    · obtain ⟨f, fs, rfl⟩ := List.exists_cons_of_ne_nil hn.1
      subst hspelling
      have hargument := huses.argument?_eq (List.nil_subset _) hn.2 List.suffix_rfl
      exact .inr (.inr (.inr ⟨rfl, f, by simp, by rw [hargument]; rfl⟩))
    · subst hspelling
      rw [Seen, visible_self, declares_append]
      exact (h spelling ⟨_, _, huses⟩).imp_right (Or.imp_right Or.inr)

end Expressions

/-! ## Statements -/

section Statements

variable {n : String} {except visible : List String} {outer : List Frame}

theorem Stmt.declares_headFrames (s : Stmt) :
    Declares (s.headFrames ++ outer) n ↔ n ∈ s.headNames ∨ Declares outer n := by
  rw [declares_append]
  refine or_congr_left ?_
  cases s <;> simp [headFrames, headNames, Declares, paramFrame, Init.frame, repeatFrame]

theorem Motion.declares_frames (m : Motion) :
    Declares (m.frames ++ ⟨[], []⟩ :: outer) n ↔ Declares outer n := by
  cases m <;> simp [frames, locals, Declares]

theorem Stmt.declares_bodyFrame (names : Names) (body : List Stmt) :
    Declares (Stmt.bodyFrame names body :: outer) n ↔
      n ∈ Stmt.declaredBy body ∨ Declares outer n := by
  simp [Declares, bodyFrame, Stmt.mem_declared_scripts]

theorem Stmt.sees_iff {s : Stmt} :
    s.Sees visible ↔
      (∀ e ∈ s.exprs, ∀ n, e.Shows n → isBuiltin n = true ∨ n ∈ s.headNames ++ visible) ∧
      (∀ c ∈ s.commands, ∀ e ∈ c.motion.arguments, ∀ n, e.Shows n →
        isBuiltin n = true ∨ n ∈ visible) ∧
      ∀ body ∈ s.bodies, ∀ s' ∈ body,
        s'.Sees (Stmt.declaredBy body ++ (s.headNames ++ visible)) := by
  constructor
  · rintro ⟨hexprs, hcommands, hbodies⟩
    exact ⟨hexprs, hcommands, hbodies⟩
  · rintro ⟨hexprs, hcommands, hbodies⟩
    exact .intro hexprs hcommands hbodies

/-- A statement shows visible names exactly if it sees its names, where those that are not asked for
count as visible. -/
theorem Stmt.everywhere_seen (s : Stmt) (names : Names)
    (h : ∀ n, n ∈ visible ↔ n ∈ except ∨ Declares outer n) :
    Everywhere (Seen except) outer (s.script names).2 ↔ s.Sees visible := by
  induction s using Stmt.bodies_induction generalizing names outer visible with
  | h s ih => ?_
  have hhead : ∀ n, n ∈ s.headNames ++ visible ↔
      n ∈ except ∨ Declares (s.headFrames ++ outer) n := by
    intro n
    rw [List.mem_append, h, s.declares_headFrames, or_left_comm]
  have hexprs : (∀ e ∈ s.exprs, Everywhere (Seen except) (s.headFrames ++ outer) e.argument) ↔
      ∀ e ∈ s.exprs, ∀ n, e.Shows n → isBuiltin n = true ∨ n ∈ s.headNames ++ visible := by
    simp only [Expr.everywhere_seen, hhead, or_left_comm]
  have hcommands : (∀ c ∈ s.commands, ∀ e ∈ c.motion.arguments,
      Everywhere (Seen except) (c.motion.frames ++ ⟨[], []⟩ :: outer) e.argument) ↔
      ∀ c ∈ s.commands, ∀ e ∈ c.motion.arguments, ∀ n, e.Shows n →
        isBuiltin n = true ∨ n ∈ visible := by
    simp only [Expr.everywhere_seen, Motion.declares_frames, h, or_left_comm]
  have hbodies : (∀ q ∈ s.namedBodies names,
      Everywhere (Seen except) (Stmt.bodyFrame q.1 q.2 :: (s.headFrames ++ outer))
        (Stmt.scripts q.1 q.2).2) ↔
      ∀ body ∈ s.bodies, ∀ s' ∈ body,
        s'.Sees (Stmt.declaredBy body ++ (s.headNames ++ visible)) := by
    rw [← s.map_snd_namedBodies names, List.forall_mem_map]
    refine forall₂_congr fun q hq => Stmt.everywhere_scripts (fun s' hs' names' => ?_) q.1
    refine ih q.2 (s.map_snd_namedBodies names ▸ List.mem_map_of_mem hq) s' hs' names' fun n => ?_
    rw [List.mem_append, hhead, Stmt.declares_bodyFrame, or_left_comm]
  rw [Stmt.everywhere_script, Stmt.sees_iff, hexprs, hcommands, hbodies]
  simp [Seen]

end Statements

theorem Script.everywhere_seen_nil {s : Script} {except : List String} :
    Everywhere (Seen except) [] s ↔
      ∀ n spelling fs, (.use n spelling, fs) ∈ occurrences s →
        n ∈ except ∨ Visible n spelling fs := by
  constructor
  · intro h n spelling fs hx
    have hseen := h _ hx
    rwa [List.append_nil] at hseen
  · rintro h ⟨c, fs⟩ hx
    rw [List.append_nil]
    cases c with
    | use n spelling => exact h n spelling fs hx
    | _ => trivial

theorem Program.everywhere_seen (style : Style) (p : Program) (except : List String) :
    Everywhere (Seen except) [] (p.script style) ↔
      ∀ s ∈ p, s.Sees (Stmt.declaredBy p ++ except) := by
  rw [Program.everywhere_script]
  refine Stmt.everywhere_scripts (fun s _ names => s.everywhere_seen names fun n => ?_) {}
  rw [Stmt.declares_bodyFrame, List.mem_append, or_comm]
  simp [Declares]

/-- In the script of a program without imports that the analysis lets pass, every name is visible
where it stands unless a conditional or a loop declares it.  All names are visible exactly if the
program sees its names in the scopes of the script. -/
theorem visible_script {p : Program} (himports : ∀ id, .declare id .imported ∉ p.events)
    (h : (analyze p).2 = []) (style : Style) :
    (∀ n spelling fs, (.use n spelling, fs) ∈ occurrences (p.script style) →
      n ∉ Stmt.blockNamesAll p → Visible n spelling fs) ∧
    ((∀ n spelling fs, (.use n spelling, fs) ∈ occurrences (p.script style) →
      Visible n spelling fs) ↔ ∀ s ∈ p, s.Sees (Stmt.declaredBy p)) := by
  constructor
  · intro n spelling fs hx hn
    have hseen := (Program.everywhere_seen style p _).2 (sees_of_analyze himports h)
    exact (everywhere_seen_nil.1 hseen n spelling fs hx).resolve_left hn
  · have hall := Program.everywhere_seen style p []
    rw [everywhere_seen_nil, List.append_nil] at hall
    simpa using hall

/-- The name that the first clause of a loop declares is not visible behind the loop, in a source
without faults. -/
theorem visible_script_loop :
    let source := "for (let i = true; i; i) { }\nlet j = i"
    let p := (Checkup.ofSource source).program
    check source = [] ∧ (∀ id, .declare id .imported ∉ p.events) ∧ (analyze p).2 = [] ∧
      ¬ ∀ n spelling fs, (.use n spelling, fs) ∈ occurrences (p.script {}) →
        Visible n spelling fs := by
  intro source p
  have hp : p = [.forLoop ⟨1, 1⟩ (some (.binding ⟨⟨1, 6⟩, ⟨⟨1, 10⟩, "i"⟩, .bool ⟨1, 14⟩ true⟩))
      (.ident ⟨⟨1, 20⟩, "i"⟩) (some (.ident ⟨⟨1, 23⟩, "i"⟩)) [],
      .binding ⟨⟨2, 1⟩, ⟨⟨2, 5⟩, "j"⟩, .ident ⟨⟨2, 9⟩, "i"⟩⟩] := by
    dsimp only [p, source]
    eq_refl
  have himports : ∀ id, .declare id .imported ∉ p.events := by
    rw [hp]
    intro id hid
    simp [Program.events, Stmt.eventsAll, Stmt.events, Init.events, Binding.events, readEvents,
      Expr.reads, Expr.readsOptional] at hid
  have hfaults : (analyze p).2 = [] := by
    rw [hp]
    decide +kernel
  refine ⟨by decide +kernel, himports, hfaults, ?_⟩
  rw [(visible_script himports hfaults {}).2, hp]
  intro hsees
  obtain ⟨hexprs, -, -⟩ := Stmt.sees_iff.1 (hsees (.binding _) (.tail _ (.head _)))
  have hseen := hexprs _ (.head _) "i" ⟨_, _, .ident _⟩
  revert hseen
  decide +kernel

end Easel
