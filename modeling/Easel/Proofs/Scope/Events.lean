import Easel.Scope.Analysis

/-!
# Scope events

Read from left to right, a program opens and closes scopes, declares names and reads names
(`Program.events`).  A symbol table can carry out such events one by one (`SymbolTable.run`).  The
visits of the analysis do the same to the table, and find the same faults: `analyze_eq_run`.
-/

namespace Easel

/-! ## The names an expression reads -/

mutual

/-- The names an expression reads, from left to right. A property name is not read. -/
def Expr.reads : Expr → List Ident
  | .ident id => [id]
  | .number _ _ | .string _ _ | .color _ _ | .bool _ _ | .null _ => []
  | .array _ elements => Expr.readsAll elements
  | .object _ properties => Expr.readsProperties properties
  | .negate _ operand => operand.reads
  | .binary _ _ left right => left.reads ++ right.reads
  | .assign target value => target.reads ++ value.reads
  | .call callee args => callee.reads ++ Expr.readsAll args
  | .member base _ => base.reads
  | .index base key => base.reads ++ key.reads
  | .shape _ s => s.reads

/-- The names several expressions read. -/
def Expr.readsAll : List Expr → List Ident
  | [] => []
  | e :: rest => e.reads ++ Expr.readsAll rest

/-- The names the values of properties read. -/
def Expr.readsProperties : List (String × Expr) → List Ident
  | [] => []
  | (_, value) :: rest => value.reads ++ Expr.readsProperties rest

/-- The names an optional expression reads. -/
def Expr.readsOptional : Option Expr → List Ident
  | none => []
  | some e => e.reads

/-- The names the fields of a shape read. -/
def Shape.reads : Shape → List Ident
  | .circle x y size color => x.reads ++ y.reads ++ size.reads ++ color.reads
  | .rect x y width height color =>
    x.reads ++ y.reads ++ width.reads ++ height.reads ++ color.reads
  | .line x₁ y₁ x₂ y₂ color => x₁.reads ++ y₁.reads ++ x₂.reads ++ y₂.reads ++ color.reads
  | .triangle x₁ y₁ x₂ y₂ x₃ y₃ color =>
    x₁.reads ++ y₁.reads ++ x₂.reads ++ y₂.reads ++ x₃.reads ++ y₃.reads ++ color.reads
  | .polygon x y sides radius color rotation =>
    x.reads ++ y.reads ++ sides.reads ++ radius.reads ++ color.reads ++
      Expr.readsOptional rotation
  | .ellipse x y radiusX radiusY color rotation =>
    x.reads ++ y.reads ++ radiusX.reads ++ radiusY.reads ++ color.reads ++
      Expr.readsOptional rotation
  | .arc x y radius startAngle endAngle color _ =>
    x.reads ++ y.reads ++ radius.reads ++ startAngle.reads ++ endAngle.reads ++ color.reads
  | .text x y content color _ size _ =>
    x.reads ++ y.reads ++ content.reads ++ color.reads ++ Expr.readsOptional size

end

/-- The names the arguments of a command read. -/
def Motion.reads : Motion → List Ident
  | .move e _ | .rotate e | .scale e | .fade e => e.reads
  | .bounce height => Expr.readsOptional height
  | .wave amplitude frequency => amplitude.reads ++ frequency.reads
  | .orbit centerX centerY radius speed =>
    centerX.reads ++ centerY.reads ++ radius.reads ++ speed.reads
  | .pulse minScale maxScale speed =>
    minScale.reads ++ maxScale.reads ++ Expr.readsOptional speed
  | .wobble amount speed => amount.reads ++ Expr.readsOptional speed
  | .spring targetX targetY stiffness damping =>
    targetX.reads ++ targetY.reads ++ Expr.readsOptional stiffness ++ Expr.readsOptional damping

/-! ## Events -/

/-- What a program does to names at one place. -/
inductive ScopeEvent where
  | enter
  | exit
  | declare (id : Ident) (kind : SymbolKind)
  | read (id : Ident)
  deriving DecidableEq, Repr

/-- The events of reading names. -/
def readEvents (ids : List Ident) : List ScopeEvent := ids.map .read

theorem readEvents_append (ids ids' : List Ident) :
    readEvents (ids ++ ids') = readEvents ids ++ readEvents ids' := List.map_append

/-- A binding reads its value before it declares its name. -/
def Binding.events (b : Binding) : List ScopeEvent :=
  readEvents b.value.reads ++ [.declare b.name .var]

/-- The events of the first clause of a loop. -/
def Init.events : Init → List ScopeEvent
  | .binding b => b.events
  | .expr e => readEvents e.reads

mutual

/-- The events of a statement. -/
def Stmt.events : Stmt → List ScopeEvent
  | .binding b => b.events
  | .function _ name params body =>
    .declare name .function :: .enter ::
      (params.map (fun p => .declare p .parameter) ++ Stmt.eventsAll body ++ [.exit])
  | .ret _ value => readEvents (Expr.readsOptional value)
  | .ifThen _ cond body => readEvents cond.reads ++ Stmt.eventsAll body
  | .ifElse _ cond body alternative =>
    readEvents cond.reads ++ Stmt.eventsAll body ++ Stmt.eventsAll alternative
  | .repeatLoop _ times body => readEvents times.reads ++ Stmt.eventsAll body
  | .whileLoop _ cond body => readEvents cond.reads ++ Stmt.eventsAll body
  | .forLoop _ init cond update body =>
    (init.map Init.events).getD [] ++ readEvents cond.reads ++
      readEvents (Expr.readsOptional update) ++ Stmt.eventsAll body
  | .importFrom _ names _ => names.map (fun id => .declare id .imported)
  | .scene _ _ body => .enter :: (Stmt.eventsAll body ++ [.exit])
  | .animate _ commands => commands.flatMap (fun c => readEvents c.motion.reads)
  | .expr e => readEvents e.reads

/-- The events of statements in turn. -/
def Stmt.eventsAll : List Stmt → List ScopeEvent
  | [] => []
  | s :: rest => s.events ++ Stmt.eventsAll rest

end

/-- The events of a program. -/
def Program.events (p : Program) : List ScopeEvent := Stmt.eventsAll p

/-! ## Events on a table -/

namespace SymbolTable

/-- Carry out one event. -/
def step (t : SymbolTable) : ScopeEvent → SymbolTable × List NameFault
  | .enter => (t.enter, [])
  | .exit => (t.exit?.getD t, [])
  | .declare id kind =>
    let (t', _, fresh) := t.declare (symbolOf id kind)
    (t', if fresh then [] else [⟨id, .redeclared⟩])
  | .read id => (t, if (t.lookup id.name).isSome then [] else [⟨id, .undefined⟩])

/-- Carry out events in turn: the table after them and the misused names, in order. -/
def run (t : SymbolTable) : List ScopeEvent → SymbolTable × List NameFault
  | [] => (t, [])
  | e :: rest =>
    let (t', faults) := t.step e
    let (t'', more) := t'.run rest
    (t'', faults ++ more)

theorem run_append (t : SymbolTable) (es es' : List ScopeEvent) :
    t.run (es ++ es') =
      (((t.run es).1.run es').1, (t.run es).2 ++ ((t.run es).1.run es').2) := by
  induction es generalizing t with
  | nil => rfl
  | cons e es ih => simp only [List.cons_append, run, ih, List.append_assoc]

end SymbolTable

/-! ## Visits -/

/-- The visit carries out the events: it leaves the table as they do, and adds the names that they
misuse to those met before. -/
def Visit.Performs (v : Visit) (es : List ScopeEvent) : Prop :=
  ∀ a : Analysis, v.run a = pure ((), ⟨(a.table.run es).1, a.faults ++ (a.table.run es).2⟩)

namespace Visit

variable {v w : Visit} {es es' : List ScopeEvent}

theorem Performs.pure : Performs (Pure.pure ()) [] := by
  intro a
  rw [SymbolTable.run, List.append_nil]
  rfl

theorem Performs.bind (h : v.Performs es) (h' : w.Performs es') :
    Performs (v >>= fun _ => w) (es ++ es') := by
  intro a
  have hw := h' ⟨(a.table.run es).1, a.faults ++ (a.table.run es).2⟩
  rw [StateT.run_bind, h a, pure_bind, SymbolTable.run_append, ← List.append_assoc]
  exact hw

/-- A visit that does to the table what one event does. -/
theorem performs_event {e : ScopeEvent}
    (h : ∀ a : Analysis,
      v.run a = pure ((), ⟨(a.table.step e).1, a.faults ++ (a.table.step e).2⟩)) :
    v.Performs [e] := by
  intro a
  have hone : a.table.run [e] = a.table.step e := by
    simp only [SymbolTable.run, List.append_nil]
  rw [h, hone]

theorem performs_declare (kind : SymbolKind) (id : Ident) :
    (declare kind id).Performs [.declare id kind] := by
  refine performs_event fun a => ?_
  obtain ⟨t, faults⟩ := a
  rcases hdeclare : t.declare (SymbolTable.symbolOf id kind) with ⟨t', taken, _ | _⟩ <;>
    simp [declare, report, SymbolTable.step, hdeclare]

theorem performs_resolve (id : Ident) : (resolve id).Performs [.read id] := by
  refine performs_event fun a => ?_
  obtain ⟨t, faults⟩ := a
  cases hlookup : t.lookup id.name <;> simp [resolve, report, SymbolTable.step, hlookup]

theorem Performs.withScope (h : v.Performs es) :
    (Visit.withScope v).Performs (.enter :: (es ++ [.exit])) := by
  have henter : Performs (modify fun a => { a with table := a.table.enter }) [.enter] :=
    performs_event fun a => by simp [SymbolTable.step]
  have hexit : Performs (modify fun a => { a with table := a.table.exit?.getD a.table }) [.exit] :=
    performs_event fun a => by simp [SymbolTable.step]
  exact henter.bind (h.bind hexit)

theorem Performs.forM {α : Type} {visit : α → Visit} {events : α → List ScopeEvent}
    (h : ∀ x, (visit x).Performs (events x)) (xs : List α) :
    Performs (xs.forM visit) (xs.flatMap events) := by
  induction xs with
  | nil => exact .pure
  | cons x xs ih => exact (h x).bind ih

/-- The visit looks names up in turn. -/
abbrev Reads (v : Visit) (ids : List Ident) : Prop := v.Performs (readEvents ids)

theorem Reads.append {ids ids' : List Ident} (h : v.Reads ids) (h' : w.Reads ids') :
    Reads (v >>= fun _ => w) (ids ++ ids') := by
  rw [Reads, readEvents_append]
  exact h.bind h'

end Visit

open Visit

mutual

theorem Expr.performs_visit : ∀ e : Expr, e.visit.Reads e.reads
  | .ident id => performs_resolve id
  | .number _ _ | .string _ _ | .color _ _ | .bool _ _ | .null _ => .pure
  | .array _ elements => Expr.performs_visitAll elements
  | .object _ properties => Expr.performs_visitProperties properties
  | .negate _ operand => operand.performs_visit
  | .binary _ _ left right => left.performs_visit.append right.performs_visit
  | .assign target value => target.performs_visit.append value.performs_visit
  | .call callee args => callee.performs_visit.append (Expr.performs_visitAll args)
  | .member base _ => base.performs_visit
  | .index base key => base.performs_visit.append key.performs_visit
  | .shape _ s => s.performs_visit

theorem Expr.performs_visitAll : ∀ es : List Expr,
    (Expr.visitAll es).Reads (Expr.readsAll es)
  | [] => .pure
  | e :: rest => e.performs_visit.append (Expr.performs_visitAll rest)

theorem Expr.performs_visitProperties : ∀ ps : List (String × Expr),
    (Expr.visitProperties ps).Reads (Expr.readsProperties ps)
  | [] => .pure
  | (_, value) :: rest => value.performs_visit.append (Expr.performs_visitProperties rest)

theorem Expr.performs_visitOptional : ∀ o : Option Expr,
    (Expr.visitOptional o).Reads (Expr.readsOptional o)
  | none => .pure
  | some e => e.performs_visit

theorem Shape.performs_visit : ∀ s : Shape, s.visit.Reads s.reads
  | .circle x y size color => by
    simp only [Shape.reads, List.append_assoc]
    exact x.performs_visit.append <| y.performs_visit.append <| size.performs_visit.append
      color.performs_visit
  | .rect x y width height color => by
    simp only [Shape.reads, List.append_assoc]
    exact x.performs_visit.append <| y.performs_visit.append <| width.performs_visit.append <|
      height.performs_visit.append color.performs_visit
  | .line x₁ y₁ x₂ y₂ color => by
    simp only [Shape.reads, List.append_assoc]
    exact x₁.performs_visit.append <| y₁.performs_visit.append <| x₂.performs_visit.append <|
      y₂.performs_visit.append color.performs_visit
  | .triangle x₁ y₁ x₂ y₂ x₃ y₃ color => by
    simp only [Shape.reads, List.append_assoc]
    exact x₁.performs_visit.append <| y₁.performs_visit.append <| x₂.performs_visit.append <|
      y₂.performs_visit.append <| x₃.performs_visit.append <| y₃.performs_visit.append
        color.performs_visit
  | .polygon x y sides radius color rotation => by
    simp only [Shape.reads, List.append_assoc]
    exact x.performs_visit.append <| y.performs_visit.append <| sides.performs_visit.append <|
      radius.performs_visit.append <| color.performs_visit.append <|
        Expr.performs_visitOptional rotation
  | .ellipse x y radiusX radiusY color rotation => by
    simp only [Shape.reads, List.append_assoc]
    exact x.performs_visit.append <| y.performs_visit.append <| radiusX.performs_visit.append <|
      radiusY.performs_visit.append <| color.performs_visit.append <|
        Expr.performs_visitOptional rotation
  | .arc x y radius startAngle endAngle color _ => by
    simp only [Shape.reads, List.append_assoc]
    exact x.performs_visit.append <| y.performs_visit.append <| radius.performs_visit.append <|
      startAngle.performs_visit.append <| endAngle.performs_visit.append color.performs_visit
  | .text x y content color _ size _ => by
    simp only [Shape.reads, List.append_assoc]
    exact x.performs_visit.append <| y.performs_visit.append <| content.performs_visit.append <|
      color.performs_visit.append <| Expr.performs_visitOptional size

end

theorem Motion.performs_visit (m : Motion) : m.visit.Reads m.reads := by
  have one (e : Expr) := e.performs_visit
  have optional (o : Option Expr) := Expr.performs_visitOptional o
  cases m with
  | move e _ | rotate e | scale e | fade e => exact one e
  | bounce height => exact optional height
  | wave amplitude frequency => exact (one amplitude).append (one frequency)
  | orbit centerX centerY radius speed =>
    simp only [Motion.reads, List.append_assoc]
    exact (one centerX).append <| (one centerY).append <| (one radius).append (one speed)
  | pulse minScale maxScale speed =>
    simp only [Motion.reads, List.append_assoc]
    exact (one minScale).append <| (one maxScale).append (optional speed)
  | wobble amount speed => exact (one amount).append (optional speed)
  | spring targetX targetY stiffness damping =>
    simp only [Motion.reads, List.append_assoc]
    exact (one targetX).append <| (one targetY).append <|
      (optional stiffness).append (optional damping)

theorem Binding.performs_visit (b : Binding) : b.visit.Performs b.events :=
  b.value.performs_visit.bind (performs_declare .var b.name)

theorem Init.performs_visit : ∀ init : Option Init,
    Performs (init.forM Init.visit) ((init.map Init.events).getD [])
  | none => .pure
  | some (.binding b) => b.performs_visit
  | some (.expr e) => e.performs_visit

theorem performs_declarations (kind : SymbolKind) (ids : List Ident) :
    Performs (ids.forM (declare kind)) (ids.map fun id => .declare id kind) := by
  have hall := Performs.forM (performs_declare kind) ids
  rwa [← List.map_eq_flatMap] at hall

mutual

theorem Stmt.performs_visit : ∀ s : Stmt, s.visit.Performs s.events
  | .binding b => b.performs_visit
  | .function _ name params body =>
    (performs_declare .function name).bind
      ((performs_declarations .parameter params).bind (Stmt.performs_visitAll body)).withScope
  | .ret _ value => Expr.performs_visitOptional value
  | .ifThen _ cond body => cond.performs_visit.bind (Stmt.performs_visitAll body)
  | .ifElse _ cond body alternative => by
    rw [Stmt.events, List.append_assoc]
    exact cond.performs_visit.bind <| (Stmt.performs_visitAll body).bind
      (Stmt.performs_visitAll alternative)
  | .repeatLoop _ times body => times.performs_visit.bind (Stmt.performs_visitAll body)
  | .whileLoop _ cond body => cond.performs_visit.bind (Stmt.performs_visitAll body)
  | .forLoop _ init cond update body => by
    rw [Stmt.events, List.append_assoc, List.append_assoc]
    exact (Init.performs_visit init).bind <| cond.performs_visit.bind <|
      (Expr.performs_visitOptional update).bind (Stmt.performs_visitAll body)
  | .importFrom _ names _ => performs_declarations .imported names
  | .scene _ _ body => (Stmt.performs_visitAll body).withScope
  | .animate _ commands => .forM (fun c => c.motion.performs_visit) commands
  | .expr e => e.performs_visit

theorem Stmt.performs_visitAll : ∀ ss : List Stmt,
    (Stmt.visitAll ss).Performs (Stmt.eventsAll ss)
  | [] => .pure
  | s :: rest => s.performs_visit.bind (Stmt.performs_visitAll rest)

end

/-- The analysis of a program carries out its events on a new table. -/
theorem analyze_eq_run (p : Program) : analyze p = SymbolTable.run .empty p.events := by
  have hvisit := Stmt.performs_visitAll p {}
  rw [analyze, hvisit]
  rfl

end Easel
