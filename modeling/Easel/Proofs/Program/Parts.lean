import Easel.Proofs.Scope.Events
import Easel.Script.Expr
import Mathlib.Tactic.Common

/-!
# Parts of expressions and statements

The slots of an expression are its operands, elements and arguments, or the slots of the shape that
it is; its parts leave out what a shape is not drawn from.  What holds of an expression if it holds
of its slots, or of its parts, holds of all expressions (`Expr.slots_induction`,
`Expr.parts_induction`).

A statement declares names where it stands and names for its head and bodies, it has expressions of
its own or commands, and bodies (`Stmt.bodies_induction`).
-/

namespace Easel

/-- The expressions an expression other than a shape is made of. -/
def Expr.children : Expr → List Expr
  | .array _ elements => elements
  | .object _ properties => properties.map Prod.snd
  | .negate _ operand => [operand]
  | .binary _ _ left right => [left, right]
  | .assign target value => [target, value]
  | .call callee args => callee :: args
  | .member base _ => [base]
  | .index base key => [base, key]
  | .ident _ | .number _ _ | .string _ _ | .color _ _ | .bool _ _ | .null _ | .shape _ _ => []

/-- The expressions a shape has: its fields, and the rotation of an ellipse. -/
def Shape.slots : Shape → List Expr
  | .ellipse x y radiusX radiusY color rotation =>
    [x, y, radiusX, radiusY, color] ++ rotation.toList
  | s => s.fields

theorem Shape.fields_subset (s : Shape) : s.fields ⊆ s.slots := by
  cases s with
  | ellipse => exact List.subset_append_left _ _
  | _ => exact List.Subset.refl _

/-- The font of a text, if it has one. -/
def Shape.font : Shape → Option (Position × String)
  | .text _ _ _ _ font _ _ => font
  | _ => none

/-- The parts of an expression. -/
def Expr.parts : Expr → List Expr
  | .shape _ s => s.fields
  | e => e.children

/-- The expressions that an expression is made of. -/
def Expr.slots : Expr → List Expr
  | .shape _ s => s.slots
  | e => e.children

theorem Expr.parts_subset (e : Expr) : e.parts ⊆ e.slots := by
  cases e with
  | shape p s => exact s.fields_subset
  | _ => exact List.Subset.refl _

theorem Shape.captured_subset (s : Shape) : s.captured ⊆ drawingLocals :=
  fun _ hn => (List.mem_filter.1 hn).1

theorem sizeOf_toList_lt {o : Option Expr} {e : Expr} (h : e ∈ o.toList) : sizeOf e < sizeOf o := by
  cases o with
  | none => simp at h
  | some a =>
    rw [Option.toList_some, List.mem_singleton] at h
    subst h
    simp

theorem Shape.sizeOf_lt_of_mem_slots {s : Shape} {f : Expr} (h : f ∈ s.slots) :
    sizeOf f < sizeOf s := by
  cases s <;>
    simp only [slots, fields, List.mem_append, List.mem_cons, List.not_mem_nil, or_false] at h
  case polygon =>
    rcases h with (rfl | rfl | rfl | rfl | rfl) | h
    on_goal 6 => have := sizeOf_toList_lt h
    all_goals simp only [Shape.polygon.sizeOf_spec]; omega
  case ellipse =>
    rcases h with (rfl | rfl | rfl | rfl | rfl) | h
    on_goal 6 => have := sizeOf_toList_lt h
    all_goals simp only [Shape.ellipse.sizeOf_spec]; omega
  case text =>
    rcases h with (rfl | rfl | rfl | rfl) | h
    on_goal 5 => have := sizeOf_toList_lt h
    all_goals simp only [Shape.text.sizeOf_spec]; omega
  case circle => rcases h with rfl | rfl | rfl | rfl <;> simp <;> omega
  case rect | line => rcases h with rfl | rfl | rfl | rfl | rfl <;> simp <;> omega
  case triangle => rcases h with rfl | rfl | rfl | rfl | rfl | rfl | rfl <;> simp <;> omega
  case arc => rcases h with rfl | rfl | rfl | rfl | rfl | rfl <;> simp <;> omega

theorem Expr.sizeOf_lt_of_mem_slots {e c : Expr} (h : c ∈ e.slots) : sizeOf c < sizeOf e := by
  cases e <;> simp only [slots, children, List.mem_cons, List.not_mem_nil, or_false] at h
  case array =>
    have := List.sizeOf_lt_of_mem h
    simp only [Expr.array.sizeOf_spec]
    omega
  case object =>
    obtain ⟨⟨key, value⟩, hmem, rfl⟩ := List.mem_map.1 h
    have := List.sizeOf_lt_of_mem hmem
    simp only [Prod.mk.sizeOf_spec, Expr.object.sizeOf_spec] at this ⊢
    omega
  case call =>
    rcases h with rfl | h
    · simp
      omega
    · have := List.sizeOf_lt_of_mem h
      simp only [Expr.call.sizeOf_spec]
      omega
  case shape =>
    have := Shape.sizeOf_lt_of_mem_slots h
    simp only [Expr.shape.sizeOf_spec]
    omega
  case negate =>
    subst h
    simp only [Expr.negate.sizeOf_spec]
    omega
  case member =>
    subst h
    simp only [Expr.member.sizeOf_spec]
    omega
  case binary => rcases h with rfl | rfl <;> simp only [Expr.binary.sizeOf_spec] <;> omega
  case assign => rcases h with rfl | rfl <;> simp only [Expr.assign.sizeOf_spec] <;> omega
  case index => rcases h with rfl | rfl <;> simp only [Expr.index.sizeOf_spec] <;> omega

/-- Induction on the slots of an expression. -/
theorem Expr.slots_induction {P : Expr → Prop} (h : ∀ e, (∀ c ∈ e.slots, P c) → P e) (e : Expr) :
    P e :=
  h e fun c hc =>
    have := Expr.sizeOf_lt_of_mem_slots hc
    Expr.slots_induction h c
termination_by sizeOf e

/-- Induction on the parts of an expression. -/
theorem Expr.parts_induction {P : Expr → Prop} (h : ∀ e, (∀ c ∈ e.parts, P c) → P e) (e : Expr) :
    P e :=
  Expr.slots_induction (fun e ih => h e fun c hc => ih c (e.parts_subset hc)) e

/-! ## Reads -/

theorem Expr.readsAll_eq_flatMap (es : List Expr) : Expr.readsAll es = es.flatMap Expr.reads := by
  induction es with
  | nil => rfl
  | cons e es ih => rw [Expr.readsAll, ih, List.flatMap_cons]

theorem Expr.readsProperties_eq_flatMap (ps : List (String × Expr)) :
    Expr.readsProperties ps = (ps.map Prod.snd).flatMap Expr.reads := by
  induction ps with
  | nil => rfl
  | cons p ps ih => rw [Expr.readsProperties, ih, List.map_cons, List.flatMap_cons]

theorem Expr.readsOptional_eq_flatMap (o : Option Expr) :
    Expr.readsOptional o = o.toList.flatMap Expr.reads := by
  cases o with
  | none => rfl
  | some e => simp [Expr.readsOptional]

theorem Shape.reads_eq_flatMap (s : Shape) : s.reads = s.slots.flatMap Expr.reads := by
  cases s <;> simp [reads, slots, fields, Expr.readsOptional_eq_flatMap]

/-- An expression other than a name reads what its slots read. -/
theorem Expr.reads_eq_flatMap {e : Expr} (h : ∀ id, e ≠ .ident id) :
    e.reads = e.slots.flatMap Expr.reads := by
  cases e with
  | ident id => exact absurd rfl (h id)
  | shape p s => exact s.reads_eq_flatMap
  | array p elements => exact Expr.readsAll_eq_flatMap elements
  | object p properties => exact Expr.readsProperties_eq_flatMap properties
  | call callee args =>
    rw [Expr.reads, Expr.readsAll_eq_flatMap]
    rfl
  | _ => simp [Expr.reads, slots, children]

theorem Expr.mem_reads_of_mem_parts {e c : Expr} {id : Ident} (hc : c ∈ e.parts)
    (h : id ∈ c.reads) : id ∈ e.reads := by
  have hident : ∀ id, e ≠ .ident id := by
    rintro id rfl
    cases hc
  rw [Expr.reads_eq_flatMap hident]
  exact List.mem_flatMap.2 ⟨c, e.parts_subset hc, h⟩

/-! ## Free names -/

theorem Expr.collectAll_eq_foldl (seen : List String) (es : List Expr) :
    Expr.collectAll seen es = es.foldl Expr.collect seen := by
  induction es generalizing seen with
  | nil => rfl
  | cons e es ih => rw [Expr.collectAll, ih, List.foldl_cons]

theorem Expr.collectProperties_eq_foldl (seen : List String) (ps : List (String × Expr)) :
    Expr.collectProperties seen ps = (ps.map Prod.snd).foldl Expr.collect seen := by
  induction ps generalizing seen with
  | nil => rfl
  | cons p ps ih => rw [Expr.collectProperties, ih, List.map_cons, List.foldl_cons]

theorem Expr.collectOptional_eq_foldl (seen : List String) (o : Option Expr) :
    Expr.collectOptional seen o = o.toList.foldl Expr.collect seen := by
  cases o <;> rfl

/-- The names of an expression other than a name are collected slot by slot. -/
theorem Expr.collect_eq_foldl {e : Expr} (h : ∀ id, e ≠ .ident id) (seen : List String) :
    e.collect seen = e.slots.foldl Expr.collect seen := by
  cases e with
  | ident id => exact absurd rfl (h id)
  | shape p s =>
    cases s <;> simp [Expr.collect, Shape.collect, slots, Shape.slots, Shape.fields,
      Expr.collectOptional_eq_foldl]
  | array p elements => exact Expr.collectAll_eq_foldl seen elements
  | object p properties => exact Expr.collectProperties_eq_foldl seen properties
  | call callee args =>
    rw [Expr.collect, Expr.collectAll_eq_foldl]
    rfl
  | _ => rfl

theorem Expr.mem_foldl_collect {es : List Expr} {n : String}
    (h : ∀ e ∈ es, ∀ seen, n ∈ e.collect seen ↔ n ∈ seen ∨ ∃ id ∈ e.reads, id.name = n)
    (seen : List String) :
    n ∈ es.foldl Expr.collect seen ↔ n ∈ seen ∨ ∃ id ∈ es.flatMap Expr.reads, id.name = n := by
  induction es generalizing seen with
  | nil => simp
  | cons e es ih =>
    obtain ⟨he, hes⟩ := List.forall_mem_cons.1 h
    rw [List.foldl_cons, ih hes, he, List.flatMap_cons, or_assoc]
    simp only [List.mem_append, or_and_right, exists_or]

/-- The collected names are those that are read. -/
theorem Expr.mem_collect (e : Expr) (n : String) (seen : List String) :
    n ∈ e.collect seen ↔ n ∈ seen ∨ ∃ id ∈ e.reads, id.name = n := by
  induction e using Expr.slots_induction generalizing seen with
  | h e ih =>
  by_cases hident : ∃ id, e = .ident id
  · obtain ⟨id, rfl⟩ := hident
    simp [Expr.collect, Expr.reads, eq_comm, or_comm]
  · have hident : ∀ id, e ≠ .ident id := fun id h => hident ⟨id, h⟩
    rw [Expr.collect_eq_foldl hident, Expr.reads_eq_flatMap hident]
    exact Expr.mem_foldl_collect ih seen

theorem mem_freeNames {es : List Expr} {n : String} :
    n ∈ freeNames es ↔ ∃ id ∈ es.flatMap Expr.reads, id.name = n := by
  rw [freeNames, Expr.collectAll_eq_foldl, Expr.mem_foldl_collect fun e _ => e.mem_collect n]
  simp

/-! ## Statements -/

/-- The arguments of a command. -/
def Motion.arguments : Motion → List Expr
  | .move e _ | .rotate e | .scale e | .fade e => [e]
  | .bounce height => height.toList
  | .wave amplitude frequency => [amplitude, frequency]
  | .orbit centerX centerY radius speed => [centerX, centerY, radius, speed]
  | .pulse minScale maxScale speed => [minScale, maxScale] ++ speed.toList
  | .wobble amount speed => [amount] ++ speed.toList
  | .spring targetX targetY stiffness damping =>
    [targetX, targetY] ++ (stiffness.toList ++ damping.toList)

namespace Init

/-- The name that an optional first clause declares. -/
def names : Option Init → List String
  | some (.binding b) => [b.name.name]
  | _ => []

/-- The expression of an optional first clause. -/
def exprs : Option Init → List Expr
  | some (.binding b) => [b.value]
  | some (.expr e) => [e]
  | none => []

end Init

namespace Stmt

/-- The name that a statement declares where it stands. -/
def ownNames : Stmt → List String
  | .binding b => [b.name.name]
  | .function _ name _ _ => [name.name]
  | _ => []

/-- The names that a statement declares for its head and its body only. -/
def headNames : Stmt → List String
  | .function _ _ params _ => params.map Ident.name
  | .forLoop _ init _ _ _ => Init.names init
  | _ => []

/-- The expressions that a statement itself has, those of commands apart. -/
def exprs : Stmt → List Expr
  | .binding b => [b.value]
  | .ret _ value => value.toList
  | .ifThen _ cond _ | .ifElse _ cond _ _ | .whileLoop _ cond _ => [cond]
  | .repeatLoop _ times _ => [times]
  | .forLoop _ init cond update _ => Init.exprs init ++ cond :: update.toList
  | .expr e => [e]
  | .function .. | .importFrom .. | .scene .. | .animate .. => []

/-- The commands of a statement. -/
def commands : Stmt → List Command
  | .animate _ commands => commands
  | _ => []

/-- The bodies of a statement. -/
def bodies : Stmt → List (List Stmt)
  | .function _ _ _ body | .ifThen _ _ body | .repeatLoop _ _ body | .whileLoop _ _ body
  | .forLoop _ _ _ _ body | .scene _ _ body => [body]
  | .ifElse _ _ body alternative => [body, alternative]
  | _ => []

/-- The names that statements declare where they stand. -/
def declaredBy (ss : List Stmt) : List String := ss.flatMap ownNames

theorem declaredBy_cons (s : Stmt) (ss : List Stmt) :
    declaredBy (s :: ss) = s.ownNames ++ declaredBy ss := List.flatMap_cons

theorem sizeOf_lt_of_mem_bodies {s s' : Stmt} {body : List Stmt} (hbody : body ∈ s.bodies)
    (hs : s' ∈ body) : sizeOf s' < sizeOf s := by
  have hlt := List.sizeOf_lt_of_mem hs
  cases s <;> simp only [bodies, List.mem_cons, List.not_mem_nil, or_false] at hbody
  case ifElse => rcases hbody with rfl | rfl <;> simp only [Stmt.ifElse.sizeOf_spec] <;> omega
  all_goals
    subst hbody
    simp
    omega

/-- Induction on the bodies of a statement. -/
theorem bodies_induction {P : Stmt → Prop}
    (h : ∀ s, (∀ body ∈ s.bodies, ∀ s' ∈ body, P s') → P s) (s : Stmt) : P s :=
  h s fun _ hbody s' hs =>
    have := sizeOf_lt_of_mem_bodies hbody hs
    bodies_induction h s'
termination_by sizeOf s

end Stmt

end Easel
