import Easel.Proofs.Scope.Visible

/-!
# Free names, analysed names and spelled names

Three walks over an expression meet its names: `freeNames` collects them, the analysis looks them
up, and the script spells them.  They meet the same names, except that a script leaves the rotation
of an ellipse out: `freeNames_agree`.
-/

namespace Easel

open Script

/-! ## Names that a script spells -/

namespace Script

/-- What spells the name of the program in a script: the name itself or its parameter where it is
read or assigned, and its parameter where that is declared. -/
def spellings (n : String) (s : Script) : List Content :=
  s.contents.filter fun c =>
    c = .use n n ∨ c = .use n (captureName n) ∨ c = .bind (captureName n) .pattern

/-- The script spells the name of the program. -/
def SpellsName (n : String) (s : Script) : Prop := ∃ c, c ∈ spellings n s

variable {n : String} {s s' : Script}

theorem collects_spellings (n : String) : Collects (spellings n) where
  append _ _ := by rw [spellings, contents_append, List.filter_append, spellings, spellings]
  code text := by simp [spellings]
  lineEnd := by simp [spellings]

@[simp] theorem spellsName_append : SpellsName n (s ++ s') ↔ SpellsName n s ∨ SpellsName n s' := by
  simp only [SpellsName, spellings, contents_append, List.filter_append, List.mem_append, exists_or]

@[simp] theorem spellsName_code (text : String) : ¬ SpellsName n (code text) := by
  simp [SpellsName, spellings]

@[simp] theorem spellsName_line (text : String) : ¬ SpellsName n (line text) := by
  simp [SpellsName, spellings]

@[simp] theorem spellsName_lineEnd : ¬ SpellsName n lineEnd := by simp [SpellsName, spellings]

@[simp] theorem spellsName_inScope : SpellsName n (inScope s) ↔ SpellsName n s := by
  simp [SpellsName, spellings]

@[simp] theorem spellsName_indented : SpellsName n (indented s) ↔ SpellsName n s := by
  simp [SpellsName, spellings]

@[simp] theorem spellsName_parameter (m : String) :
    SpellsName n (bind (captureName m) .pattern) ↔ m = n := by
  simp only [SpellsName, spellings, contents_bind, List.mem_filter, List.mem_singleton,
    exists_eq_left, decide_eq_true_eq, reduceCtorEq, false_or, Content.bind.injEq, and_true]
  exact ⟨captureName_injective, congrArg captureName⟩

@[simp] theorem spellsName_reading (captured : List String) (m : String) :
    SpellsName n (reading captured m) ↔ m = n := by
  simp only [SpellsName, spellings, reading, contents_use, List.mem_filter, List.mem_singleton,
    exists_eq_left, decide_eq_true_eq, reduceCtorEq, or_false, Content.use.injEq]
  refine ⟨fun h => h.elim And.left And.left, ?_⟩
  rintro rfl
  by_cases hm : m ∈ captured
  · exact .inr ⟨rfl, spell_of_mem hm⟩
  · exact .inl ⟨rfl, spell_of_not_mem hm⟩

theorem spellsName_commaSeparated {ss : List Script} (h : ∀ s ∈ ss, Steady s) :
    SpellsName n (commaSeparated ss) ↔ ∃ s ∈ ss, SpellsName n s := by
  simp only [SpellsName, (collects_spellings n).commaSeparated h, List.mem_flatMap,
    ← exists_and_left]
  exact exists_comm

theorem spellsName_drawing (outer names : List String) (body : Script) :
    SpellsName n (drawing outer names body) ↔ n ∈ names ∨ SpellsName n body := by
  have hlist {f : String → Script} (hf : ∀ m, Steady (f m)) (hm : ∀ m, SpellsName n (f m) ↔ m = n) :
      SpellsName n (commaSeparated (names.map f)) ↔ n ∈ names := by
    rw [spellsName_commaSeparated (List.forall_mem_map.2 fun m _ => hf m)]
    simp [hm]
  have hparameters := hlist (fun m => steady_bind (captureName m) .pattern) spellsName_parameter
  have harguments := hlist (f := reading outer) (fun m => steady_use m _) (spellsName_reading outer)
  have hnames : n ∈ names → n ∈ names ∨ SpellsName n body := .inl
  simpa [drawing, between, hparameters, harguments] using hnames

theorem spellings_bind {name : String} (h : '$' ∉ name.toList) :
    spellings n (bind name .pattern) = [] := by
  simpa [spellings] using ne_captureName h

theorem spellings_polygonLoop : spellings n polygonLoop = [] := by
  have hnames : ∀ name ∈ ["i", "angle", "px", "py"], name ≠ captureName n :=
    fun name hname => ne_captureName (by revert name; decide)
  simp only [List.forall_mem_cons] at hnames
  simp [spellings, polygonLoop, constant, codeLines, hnames]

end Script

section Expressions

variable {n : String} {captured : List String}

/-- The names that an expression captures. -/
def Expr.captures : Expr → List String
  | .shape _ s => s.captured
  | _ => []

/-- The script of an expression other than a name spells what it captures and what the scripts of
its parts spell. -/
theorem Expr.spellsName_script {e : Expr} (hident : ∀ id, e ≠ .ident id) :
    SpellsName n (e.script captured true) ↔
      n ∈ e.captures ∨ ∃ c ∈ e.parts, SpellsName n (c.script (e.captures ++ captured) true) := by
  cases e with
  | shape p s =>
    have hbody {c : Content} := (collects_spellings n).mem_body (fun _ => spellings_bind)
      spellings_polygonLoop s (s.captured ++ captured) (x := c)
    rw [Expr.script, spellsName_drawing]
    simp only [SpellsName, hbody, ← exists_and_left]
    exact or_congr_right exists_comm
  | _ =>
    have hassign (s : Script) : spellings n (s ++ code " = ") = spellings n s := by simp [spellings]
    simp only [SpellsName, (collects_spellings n).script_of_children hident (by simp)
      (fun _ _ _ => hassign _), captures,
      List.mem_flatMap, List.not_mem_nil, false_or, ← exists_and_left]
    exact exists_comm

/-- A script spells only names that its expression reads. -/
theorem Expr.exists_mem_reads_of_spells {e : Expr} (h : SpellsName n (e.script captured true)) :
    ∃ id ∈ e.reads, id.name = n := by
  induction e using Expr.parts_induction generalizing captured with
  | h e ih => ?_
  by_cases hident : ∃ id, e = .ident id
  · obtain ⟨id, rfl⟩ := hident
    exact ⟨id, List.mem_singleton_self id, (spellsName_reading captured id.name).1 h⟩
  · rcases (Expr.spellsName_script fun id he => hident ⟨id, he⟩).1 h with hn | ⟨c, hc, h⟩
    · cases e with
      | shape p s =>
        obtain ⟨-, f, hf, id, hid, rfl⟩ := Shape.mem_captured.1 hn
        exact ⟨id, Expr.mem_reads_of_mem_parts (e := .shape p s) hf hid, rfl⟩
      | _ => cases hn
    · obtain ⟨id, hid, rfl⟩ := ih c hc h
      exact ⟨id, Expr.mem_reads_of_mem_parts hc hid, rfl⟩

/-! ## Rotations -/

/-- The first expression is the second or stands inside it. -/
inductive Expr.Inside (inner : Expr) : Expr → Prop
  | refl : Inside inner inner
  | slot {c e : Expr} (hc : c ∈ e.slots) (h : Inside inner c) : Inside inner e

/-- No ellipse in the expression has a rotation. -/
def Expr.Upright (e : Expr) : Prop :=
  ∀ p x y radiusX radiusY color rotation,
    ¬ Expr.Inside (.shape p (.ellipse x y radiusX radiusY color (some rotation))) e

/-- Only the rotation of an ellipse is a slot and no part. -/
theorem Expr.upright_iff {e : Expr} :
    e.Upright ↔ e.slots = e.parts ∧ ∀ c ∈ e.slots, c.Upright := by
  constructor
  · intro h
    refine ⟨?_, fun c hc p x y radiusX radiusY color rotation hinside =>
      h p x y radiusX radiusY color rotation (.slot hc hinside)⟩
    cases e with
    | shape p s =>
      cases s with
      | ellipse x y radiusX radiusY color rotation =>
        cases rotation with
        | none => rfl
        | some rotation => exact absurd .refl (h p x y radiusX radiusY color rotation)
      | _ => rfl
    | _ => rfl
  · rintro ⟨hparts, hslots⟩ p x y radiusX radiusY color rotation hinside
    cases hinside with
    | refl => simp [slots, Shape.slots, parts, Shape.fields] at hparts
    | slot hc h => exact hslots _ hc p x y radiusX radiusY color rotation h

/-- Without rotations every name that is read is spelled. -/
theorem Expr.Upright.spells {e : Expr} (h : e.Upright) {id : Ident} (hid : id ∈ e.reads)
    (captured : List String) : SpellsName id.name (e.script captured true) := by
  induction e using Expr.slots_induction generalizing captured with
  | h e ih => ?_
  by_cases hident : ∃ id, e = .ident id
  · obtain ⟨id', rfl⟩ := hident
    obtain rfl := List.mem_singleton.1 hid
    exact (spellsName_reading captured id.name).2 rfl
  · have hident : ∀ id, e ≠ .ident id := fun id he => hident ⟨id, he⟩
    rw [Expr.reads_eq_flatMap hident] at hid
    obtain ⟨c, hc, hid⟩ := List.mem_flatMap.1 hid
    obtain ⟨hparts, hslots⟩ := Expr.upright_iff.1 h
    have hspells := ih c hc (hslots c hc) hid
    rw [hparts] at hc
    exact (Expr.spellsName_script hident).2 (.inr ⟨c, hc, hspells _⟩)

end Expressions

/-! ## Agreement -/

/-- The free names of an expression are the names that the analysis looks up in it, whatever the
table holds; its script spells no others, and spells all of them if no ellipse in it has a
rotation. -/
theorem freeNames_agree (e : Expr) (nested : Bool) :
    (∀ n, n ∈ freeNames [e] ↔ ∃ id, .read id ∈ (Stmt.expr e).events ∧ id.name = n) ∧
    (∀ (t : SymbolTable) (n : String), (∃ f ∈ (e.visit.run { table := t }).2.faults, f.id.name = n) ↔
      n ∈ freeNames [e] ∧ t.lookup n = none) ∧
    (∀ n, SpellsName n (e.script [] nested) → n ∈ freeNames [e]) ∧
    (e.Upright → ∀ n, n ∈ freeNames [e] ↔ SpellsName n (e.script [] nested)) := by
  have hfree (n : String) : n ∈ freeNames [e] ↔ ∃ id ∈ e.reads, id.name = n := by
    rw [mem_freeNames, List.flatMap_singleton]
  have hnested (n : String) :
      SpellsName n (e.script [] nested) ↔ SpellsName n (e.script [] true) := by
    rw [SpellsName, (collects_spellings n).script_nested, SpellsName]
  have hspells (n : String) (h : SpellsName n (e.script [] nested)) : n ∈ freeNames [e] :=
    (hfree n).2 (Expr.exists_mem_reads_of_spells ((hnested n).1 h))
  refine ⟨fun n => ?_, fun t n => ?_, hspells, fun hupright n => ⟨fun hn => ?_, hspells n⟩⟩
  · rw [hfree, Stmt.events, readEvents]
    simp
  · have hfaults : (e.visit.run { table := t }).2.faults = (t.run (readEvents e.reads)).2 := by
      rw [e.performs_visit]
      rfl
    rw [hfree, hfaults, t.run_readEvents_eq]
    constructor
    · rintro ⟨f, hf, rfl⟩
      obtain ⟨id, hid, rfl⟩ := List.mem_map.1 hf
      obtain ⟨hid, hnone⟩ := List.mem_filter.1 hid
      exact ⟨⟨id, hid, rfl⟩, Option.isNone_iff_eq_none.1 hnone⟩
    · rintro ⟨⟨id, hid, rfl⟩, hnone⟩
      exact ⟨_, List.mem_map_of_mem (List.mem_filter.2 ⟨hid, by simp [hnone]⟩), rfl⟩
  · obtain ⟨id, hid, rfl⟩ := (hfree n).1 hn
    exact (hnested _).2 (hupright.spells hid [])

/-- An ellipse as the color of a circle: without a rotation all names are spelled, captured ones
too.  A rotation is looked up and not spelled. -/
theorem freeNames_agree_nested :
    let name (n : String) : Expr := .ident ⟨{}, n⟩
    let circle (rotation : Option Expr) : Expr :=
      .shape {} (.circle (name "a") (name "y") (name "b")
      (.shape {} (.ellipse (name "x") (name "a") (name "b") (name "b") (name "color") rotation)))
    (circle none).Upright ∧
      (∀ n ∈ ["a", "b", "color", "x", "y"], SpellsName n ((circle none).script [] false)) ∧
      "r" ∈ freeNames [circle (some (name "r"))] ∧
      ¬ SpellsName "r" ((circle (some (name "r"))).script [] false) := by
  intro name circle
  have hident (id : Ident) : (Expr.ident id).Upright :=
    Expr.upright_iff.2 ⟨rfl, List.forall_mem_nil _⟩
  have hupright : (circle none).Upright := by
    refine Expr.upright_iff.2 ⟨rfl, ?_⟩
    simp only [circle, name, Expr.slots, Shape.slots, Shape.fields, List.forall_mem_cons, hident,
      true_and]
    refine ⟨Expr.upright_iff.2 ⟨rfl, ?_⟩, List.forall_mem_nil _⟩
    simp [Expr.slots, Shape.slots, hident]
  refine ⟨hupright, fun n hn => ?_, by decide +kernel, ?_⟩
  · refine ((freeNames_agree (circle none) false).2.2.2 hupright n).1 ?_
    revert n
    decide +kernel
  · have hnone : spellings "r" ((circle (some (name "r"))).script [] false) = [] := by
      decide +kernel
    rintro ⟨c, hc⟩
    rw [hnone] at hc
    cases hc

end Easel
