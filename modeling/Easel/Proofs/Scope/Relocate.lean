import Easel.Proofs.Program.Relocate
import Mathlib.Data.List.Basic

/-!
# Positions and names

When the parts of a program move, the names it misuses move with them, and no other name becomes
misused (`analyze_relocate`): a symbol table looks a name up by its spelling only.
-/

namespace Easel

variable (f : Position → Position)

/-! ## The names a program reads -/

@[simp] theorem Expr.reads_relocate (e : Expr) :
    (e.relocate f).reads = e.reads.map (Ident.relocate f) := by
  induction e using Expr.slots_induction with
  | h e ih => ?_
  by_cases hident : ∃ id, e = .ident id
  · obtain ⟨id, rfl⟩ := hident
    rfl
  · push Not at hident
    have hident' : ∀ id, e.relocate f ≠ .ident id := by
      cases e with
      | ident id => exact absurd rfl (hident id)
      | _ => rintro id ⟨⟩
    rw [Expr.reads_eq_flatMap hident, Expr.reads_eq_flatMap hident', Expr.slots_relocate,
      List.flatMap_map, List.map_flatMap]
    exact List.flatMap_congr ih

@[simp] theorem Expr.readsOptional_relocate (o : Option Expr) :
    Expr.readsOptional (Expr.relocateOptional f o) =
      (Expr.readsOptional o).map (Ident.relocate f) := by
  cases o with
  | none => rfl
  | some e => exact Expr.reads_relocate f e

@[simp] theorem Ident.name_relocate (id : Ident) : (id.relocate f).name = id.name := rfl

/-! ## Scope events -/

/-- The event with the position of its name changed. -/
def ScopeEvent.relocate : ScopeEvent → ScopeEvent
  | .enter => .enter
  | .exit => .exit
  | .declare id kind => .declare (id.relocate f) kind
  | .read id => .read (id.relocate f)

@[simp] theorem map_readEvents (ids : List Ident) :
    (readEvents ids).map (ScopeEvent.relocate f) = readEvents (ids.map (Ident.relocate f)) := by
  rw [readEvents, readEvents, List.map_map, List.map_map]
  rfl

@[simp] theorem Motion.reads_relocate (m : Motion) :
    (m.relocate f).reads = m.reads.map (Ident.relocate f) := by
  cases m <;> simp [Motion.relocate, Motion.reads]

theorem Binding.events_relocate (b : Binding) :
    (b.relocate f).events = b.events.map (ScopeEvent.relocate f) := by
  simp [Binding.relocate, Binding.events, ScopeEvent.relocate]

theorem Init.events_relocate (i : Init) :
    (i.relocate f).events = i.events.map (ScopeEvent.relocate f) := by
  cases i with
  | binding b => exact Binding.events_relocate f b
  | expr e => simp [Init.relocate, Init.events]

mutual

theorem Stmt.events_relocate :
    ∀ s : Stmt, (s.relocate f).events = s.events.map (ScopeEvent.relocate f)
  | .binding b => Binding.events_relocate f b
  | .function _ name params body => by
    simp [Stmt.relocate, Stmt.events, Stmt.eventsAll_relocate body, ScopeEvent.relocate,
      Function.comp_def]
  | .ifThen _ cond body | .repeatLoop _ cond body | .whileLoop _ cond body => by
    simp [Stmt.relocate, Stmt.events, Stmt.eventsAll_relocate body]
  | .ifElse _ cond body alternative => by
    simp [Stmt.relocate, Stmt.events, Stmt.eventsAll_relocate body,
      Stmt.eventsAll_relocate alternative]
  | .forLoop _ init cond update body => by
    have hinit : ((init.map (Init.relocate f)).map Init.events).getD [] =
        ((init.map Init.events).getD []).map (ScopeEvent.relocate f) := by
      cases init with
      | none => rfl
      | some i => exact Init.events_relocate f i
    simp only [Stmt.relocate, Stmt.events, hinit]
    simp [Stmt.eventsAll_relocate body]
  | .scene _ name body => by
    simp [Stmt.relocate, Stmt.events, Stmt.eventsAll_relocate body, ScopeEvent.relocate]
  | .animate _ commands => by
    simp [Stmt.relocate, Stmt.events, List.flatMap_map, List.map_flatMap, Command.relocate]
  | .importFrom _ names path => by
    simp [Stmt.relocate, Stmt.events, ScopeEvent.relocate]
  | .ret _ _ | .expr _ => by simp [Stmt.relocate, Stmt.events]

theorem Stmt.eventsAll_relocate : ∀ ss : List Stmt,
    Stmt.eventsAll (Stmt.relocateAll f ss) = (Stmt.eventsAll ss).map (ScopeEvent.relocate f)
  | [] => rfl
  | s :: ss => by
    rw [Stmt.relocateAll, Stmt.eventsAll, Stmt.eventsAll, List.map_append, Stmt.events_relocate s,
      Stmt.eventsAll_relocate ss]

end

/-- The fault with the position of its name changed. -/
def NameFault.relocate (n : NameFault) : NameFault := { n with id := n.id.relocate f }

namespace SymbolTable

/-- Tables whose scopes hold the same names in the same order. -/
def SameNames (t t' : SymbolTable) : Prop :=
  t.nested.map (List.map Symbol.name) = t'.nested.map (List.map Symbol.name) ∧
    t.globals.map Symbol.name = t'.globals.map Symbol.name

variable {f} {t t' : SymbolTable}

theorem isSome_find? (scope : Scope) (name : String) :
    (scope.find? name).isSome = (scope.map Symbol.name).contains name := by
  rw [Bool.eq_iff_iff, Scope.find?, List.find?_isSome, List.contains_iff_mem, List.mem_map]
  simp only [beq_iff_eq]

theorem isSome_lookup (t : SymbolTable) (name : String) :
    (t.lookup name).isSome =
      ((t.nested.map (List.map Symbol.name) ++ [t.globals.map Symbol.name]).any
        (List.contains · name) || isBuiltin name) := by
  have hscopes (scopes : List Scope) :
      (scopes.findSome? fun scope => scope.find? name).isSome =
        (scopes.map (List.map Symbol.name)).any (List.contains · name) := by
    rw [List.isSome_findSome?, List.any_map]
    exact congrArg scopes.any (funext fun scope => isSome_find? scope name)
  have hbuiltin : (builtin? name).isSome = isBuiltin name := by
    unfold builtin?
    cases isBuiltin name <;> rfl
  rw [lookup, Option.isSome_or, hscopes, hbuiltin, List.map_append]
  rfl

theorem SameNames.innermost (h : SameNames t t') :
    t.innermost.map Symbol.name = t'.innermost.map Symbol.name := by
  obtain ⟨hnested, hglobals⟩ := h
  unfold SymbolTable.innermost
  cases hn : t.nested <;> cases hn' : t'.nested <;> rw [hn, hn'] at hnested
  · exact hglobals
  · cases hnested
  · cases hnested
  · exact (List.cons.inj hnested).1

theorem SameNames.add (h : SameNames t t') {s s' : Symbol} (hs : s.name = s'.name) :
    SameNames (t.add s) (t'.add s') := by
  obtain ⟨hnested, hglobals⟩ := h
  unfold SymbolTable.add
  cases hn : t.nested <;> cases hn' : t'.nested <;> rw [hn, hn'] at hnested
  · exact ⟨rfl, by simp only [List.map_cons, hs, hglobals]⟩
  · cases hnested
  · cases hnested
  · obtain ⟨hscope, houter⟩ := List.cons.inj hnested
    exact ⟨by simp only [List.map_cons, hs, hscope, houter], hglobals⟩

theorem SameNames.exit (h : SameNames t t') : SameNames (t.exit?.getD t) (t'.exit?.getD t') := by
  obtain ⟨hnested, hglobals⟩ := h
  unfold SymbolTable.exit?
  cases hn : t.nested <;> cases hn' : t'.nested <;> rw [hn, hn'] at hnested
  · exact ⟨by simp only [Option.getD_none, hn, hn'], hglobals⟩
  · cases hnested
  · cases hnested
  · exact ⟨(List.cons.inj hnested).2, hglobals⟩

theorem SameNames.declare (h : SameNames t t') {s s' : Symbol} (hs : s.name = s'.name) :
    SameNames (t.declare s).1 (t'.declare s').1 ∧
      (t.declare s).2.2 = (t'.declare s').2.2 := by
  have htaken : (t.innermost.find? s.name).isSome = (t'.innermost.find? s'.name).isSome := by
    rw [isSome_find?, isSome_find?, h.innermost, hs]
  unfold SymbolTable.declare
  cases hf : t.innermost.find? s.name <;> cases hf' : t'.innermost.find? s'.name <;>
    rw [hf, hf'] at htaken
  · exact ⟨h.add hs, rfl⟩
  · cases htaken
  · cases htaken
  · exact ⟨h, rfl⟩

/-- One event on tables with the same names, wherever it stands. -/
theorem SameNames.step (h : SameNames t t') (e : ScopeEvent) :
    SameNames (t.step (e.relocate f)).1 (t'.step e).1 ∧
      (t.step (e.relocate f)).2 = (t'.step e).2.map (NameFault.relocate f) := by
  cases e with
  | enter => exact ⟨⟨congrArg (List.cons []) h.1, h.2⟩, rfl⟩
  | exit => exact ⟨h.exit, rfl⟩
  | declare id kind =>
    have hid : (symbolOf (id.relocate f) kind).name = (symbolOf id kind).name := rfl
    obtain ⟨htable, hfresh⟩ := h.declare hid
    refine ⟨htable, ?_⟩
    simp only [ScopeEvent.relocate, SymbolTable.step, hfresh]
    split <;> rfl
  | read id =>
    refine ⟨h, ?_⟩
    simp only [ScopeEvent.relocate, SymbolTable.step, isSome_lookup, h.1, h.2, Ident.name_relocate]
    split <;> rfl

/-- Events on tables with the same names, wherever they stand. -/
theorem SameNames.run (h : SameNames t t') (es : List ScopeEvent) :
    (t.run (es.map (ScopeEvent.relocate f))).2 = (t'.run es).2.map (NameFault.relocate f) := by
  induction es generalizing t t' with
  | nil => rfl
  | cons e es ih =>
    obtain ⟨htable, hfaults⟩ := h.step (f := f) e
    simp only [List.map_cons, SymbolTable.run, List.map_append, hfaults, ih htable]

end SymbolTable

/-- Names are misused at the changed positions and nowhere else. -/
theorem analyze_relocate (p : Program) :
    (analyze (Stmt.relocateAll f p)).2 = (analyze p).2.map (NameFault.relocate f) := by
  rw [analyze_eq_run, analyze_eq_run, Program.events, Program.events, Stmt.eventsAll_relocate]
  exact SymbolTable.SameNames.run ⟨rfl, rfl⟩ _

end Easel
