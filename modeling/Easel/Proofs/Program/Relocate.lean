import Easel.Proofs.Program.Parts

/-!
# Programs up to positions

`relocate f` changes every position in a piece of a program by `f`.  Two programs are the same up to
positions if they become equal once all positions are the same (`Program.unplaced`).
-/

namespace Easel

/-- The name at another place. -/
def Ident.relocate (f : Position → Position) (id : Ident) : Ident := ⟨f id.position, id.name⟩

mutual

/-- The expression with its positions changed. -/
def Expr.relocate (f : Position → Position) : Expr → Expr
  | .ident id => .ident (id.relocate f)
  | .number p value => .number (f p) value
  | .string p value => .string (f p) value
  | .color p value => .color (f p) value
  | .bool p value => .bool (f p) value
  | .null p => .null (f p)
  | .array p elements => .array (f p) (Expr.relocateAll f elements)
  | .object p properties => .object (f p) (Expr.relocateProperties f properties)
  | .negate p operand => .negate (f p) (operand.relocate f)
  | .binary p op left right => .binary (f p) op (left.relocate f) (right.relocate f)
  | .assign target value => .assign (target.relocate f) (value.relocate f)
  | .call callee args => .call (callee.relocate f) (Expr.relocateAll f args)
  | .member base property => .member (base.relocate f) (property.relocate f)
  | .index base key => .index (base.relocate f) (key.relocate f)
  | .shape p s => .shape (f p) (s.relocate f)

/-- The expressions with their positions changed. -/
def Expr.relocateAll (f : Position → Position) : List Expr → List Expr
  | [] => []
  | e :: rest => e.relocate f :: Expr.relocateAll f rest

/-- The properties with their positions changed. -/
def Expr.relocateProperties (f : Position → Position) : List (String × Expr) → List (String × Expr)
  | [] => []
  | (key, value) :: rest => (key, value.relocate f) :: Expr.relocateProperties f rest

/-- The expression, if there is one, with its positions changed. -/
def Expr.relocateOptional (f : Position → Position) : Option Expr → Option Expr
  | none => none
  | some e => some (e.relocate f)

/-- The shape with its positions changed. -/
def Shape.relocate (f : Position → Position) : Shape → Shape
  | .circle x y size color =>
    .circle (x.relocate f) (y.relocate f) (size.relocate f) (color.relocate f)
  | .rect x y width height color =>
    .rect (x.relocate f) (y.relocate f) (width.relocate f) (height.relocate f) (color.relocate f)
  | .line x₁ y₁ x₂ y₂ color =>
    .line (x₁.relocate f) (y₁.relocate f) (x₂.relocate f) (y₂.relocate f) (color.relocate f)
  | .triangle x₁ y₁ x₂ y₂ x₃ y₃ color =>
    .triangle (x₁.relocate f) (y₁.relocate f) (x₂.relocate f) (y₂.relocate f) (x₃.relocate f)
      (y₃.relocate f) (color.relocate f)
  | .polygon x y sides radius color rotation =>
    .polygon (x.relocate f) (y.relocate f) (sides.relocate f) (radius.relocate f) (color.relocate f)
      (Expr.relocateOptional f rotation)
  | .ellipse x y radiusX radiusY color rotation =>
    .ellipse (x.relocate f) (y.relocate f) (radiusX.relocate f) (radiusY.relocate f)
      (color.relocate f) (Expr.relocateOptional f rotation)
  | .arc x y radius startAngle endAngle color counterclockwise =>
    .arc (x.relocate f) (y.relocate f) (radius.relocate f) (startAngle.relocate f)
      (endAngle.relocate f) (color.relocate f) counterclockwise
  | .text x y content color font size align =>
    .text (x.relocate f) (y.relocate f) (content.relocate f) (color.relocate f)
      (font.map fun (p, name) => (f p, name)) (Expr.relocateOptional f size) align

end

/-- The motion with its positions changed. -/
def Motion.relocate (f : Position → Position) : Motion → Motion
  | .move amount direction => .move (amount.relocate f) direction
  | .rotate angle => .rotate (angle.relocate f)
  | .scale factor => .scale (factor.relocate f)
  | .fade amount => .fade (amount.relocate f)
  | .bounce height => .bounce (Expr.relocateOptional f height)
  | .wave amplitude frequency => .wave (amplitude.relocate f) (frequency.relocate f)
  | .orbit centerX centerY radius speed =>
    .orbit (centerX.relocate f) (centerY.relocate f) (radius.relocate f) (speed.relocate f)
  | .pulse minScale maxScale speed =>
    .pulse (minScale.relocate f) (maxScale.relocate f) (Expr.relocateOptional f speed)
  | .wobble amount speed => .wobble (amount.relocate f) (Expr.relocateOptional f speed)
  | .spring targetX targetY stiffness damping =>
    .spring (targetX.relocate f) (targetY.relocate f) (Expr.relocateOptional f stiffness)
      (Expr.relocateOptional f damping)

/-- The command with its positions changed. -/
def Command.relocate (f : Position → Position) (c : Command) : Command :=
  ⟨f c.position, c.motion.relocate f⟩

/-- The binding with its positions changed. -/
def Binding.relocate (f : Position → Position) (b : Binding) : Binding :=
  ⟨f b.position, b.name.relocate f, b.value.relocate f⟩

/-- The first clause of a loop with its positions changed. -/
def Init.relocate (f : Position → Position) : Init → Init
  | .binding b => .binding (b.relocate f)
  | .expr e => .expr (e.relocate f)

mutual

/-- The statement with its positions changed. -/
def Stmt.relocate (f : Position → Position) : Stmt → Stmt
  | .binding b => .binding (b.relocate f)
  | .function p name params body =>
    .function (f p) (name.relocate f) (params.map (Ident.relocate f)) (Stmt.relocateAll f body)
  | .ret p value => .ret (f p) (Expr.relocateOptional f value)
  | .ifThen p cond body => .ifThen (f p) (cond.relocate f) (Stmt.relocateAll f body)
  | .ifElse p cond body alternative =>
    .ifElse (f p) (cond.relocate f) (Stmt.relocateAll f body) (Stmt.relocateAll f alternative)
  | .repeatLoop p times body => .repeatLoop (f p) (times.relocate f) (Stmt.relocateAll f body)
  | .whileLoop p cond body => .whileLoop (f p) (cond.relocate f) (Stmt.relocateAll f body)
  | .forLoop p init cond update body =>
    .forLoop (f p) (init.map (Init.relocate f)) (cond.relocate f) (Expr.relocateOptional f update)
      (Stmt.relocateAll f body)
  | .importFrom p names path => .importFrom (f p) (names.map (Ident.relocate f)) path
  | .scene p name body => .scene (f p) name (Stmt.relocateAll f body)
  | .animate p commands => .animate (f p) (commands.map (Command.relocate f))
  | .expr e => .expr (e.relocate f)

/-- The statements with their positions changed. -/
def Stmt.relocateAll (f : Position → Position) : List Stmt → List Stmt
  | [] => []
  | s :: rest => s.relocate f :: Stmt.relocateAll f rest

end

/-- The program without its positions. -/
def Program.unplaced (p : Program) : Program := Stmt.relocateAll (fun _ => {}) p

/-! ## Lists and options -/

theorem Expr.relocateAll_eq_map (f : Position → Position) (es : List Expr) :
    Expr.relocateAll f es = es.map (Expr.relocate f) := by
  induction es with
  | nil => rfl
  | cons e es ih => rw [Expr.relocateAll, ih, List.map_cons]

theorem Expr.relocateProperties_eq_map (f : Position → Position) (ps : List (String × Expr)) :
    Expr.relocateProperties f ps = ps.map fun (key, value) => (key, value.relocate f) := by
  induction ps with
  | nil => rfl
  | cons p ps ih => rw [Expr.relocateProperties, ih, List.map_cons]

theorem Expr.relocateOptional_eq_map (f : Position → Position) (e : Option Expr) :
    Expr.relocateOptional f e = e.map (Expr.relocate f) := by
  cases e <;> rfl

theorem Shape.slots_relocate (f : Position → Position) (s : Shape) :
    (s.relocate f).slots = s.slots.map (Expr.relocate f) := by
  cases s <;> simp [relocate, slots, fields, Expr.relocateOptional_eq_map, Option.toList_map]

theorem Expr.slots_relocate (f : Position → Position) (e : Expr) :
    (e.relocate f).slots = e.slots.map (Expr.relocate f) := by
  cases e with
  | shape p s => exact s.slots_relocate f
  | array p elements => exact Expr.relocateAll_eq_map f elements
  | _ => simp [relocate, slots, children, relocateAll_eq_map, relocateProperties_eq_map]

/-! ## Positions left as they are -/

theorem Expr.relocateOptional_id_of {o : Option Expr} (h : ∀ e ∈ o.toList, e.relocate id = e) :
    Expr.relocateOptional id o = o := by
  cases o with
  | none => rfl
  | some e => rw [Expr.relocateOptional, h e (List.mem_singleton_self e)]

theorem Shape.relocate_id_of {s : Shape} (h : ∀ e ∈ s.slots, e.relocate id = e) :
    s.relocate id = s := by
  cases s <;> simp only [slots, fields, List.forall_mem_append, List.forall_mem_cons,
    List.not_mem_nil, false_implies, implies_true, and_true] at h
  case polygon | ellipse | text => simp [relocate, h.1, Expr.relocateOptional_id_of h.2]
  all_goals simp [relocate, h]

@[simp] theorem Expr.relocate_id (e : Expr) : e.relocate id = e := by
  induction e using Expr.slots_induction with
  | h e ih => ?_
  cases e with
  | ident | number | string | color | bool | null => rfl
  | array p elements =>
    have helements : ∀ e ∈ elements, e.relocate id = e := ih
    rw [Expr.relocate, Expr.relocateAll_eq_map, List.map_congr_left helements, List.map_id', id]
  | object p properties =>
    have hvalues : ∀ q ∈ properties, (q.1, q.2.relocate id) = q := fun q hq =>
      Prod.ext rfl (ih q.2 (List.mem_map_of_mem hq))
    rw [Expr.relocate, Expr.relocateProperties_eq_map, List.map_congr_left hvalues, List.map_id',
      id]
  | call callee args =>
    obtain ⟨hcallee, hargs⟩ := List.forall_mem_cons.1 ih
    rw [Expr.relocate, hcallee, Expr.relocateAll_eq_map, List.map_congr_left hargs, List.map_id']
  | shape p s => rw [Expr.relocate, Shape.relocate_id_of ih, id]
  | negate | binary | assign | member | index =>
    simp only [slots, children, List.forall_mem_cons] at ih
    simp [Expr.relocate, Ident.relocate, ih]

@[simp] theorem Expr.relocateOptional_id (o : Option Expr) : Expr.relocateOptional id o = o :=
  Expr.relocateOptional_id_of fun e _ => e.relocate_id

@[simp] theorem Ident.relocate_id : Ident.relocate id = id := rfl

@[simp] theorem Command.relocate_id : Command.relocate id = id := by
  funext ⟨p, m⟩
  cases m <;> simp [Command.relocate, Motion.relocate]

@[simp] theorem Binding.relocate_id (b : Binding) : b.relocate id = b := by
  simp [Binding.relocate]

@[simp] theorem Init.relocate_id : Init.relocate id = id := by
  funext i
  cases i <;> simp [Init.relocate]

mutual

theorem Stmt.relocate_id : ∀ s : Stmt, s.relocate id = s
  | .binding _ | .ret _ _ | .importFrom _ _ _ | .animate _ _ | .expr _ => by simp [Stmt.relocate]
  | .function _ _ _ body | .ifThen _ _ body | .repeatLoop _ _ body | .whileLoop _ _ body
  | .forLoop _ _ _ _ body | .scene _ _ body => by simp [Stmt.relocate, Stmt.relocateAll_id body]
  | .ifElse _ _ body alternative => by
    simp [Stmt.relocate, Stmt.relocateAll_id body, Stmt.relocateAll_id alternative]

theorem Stmt.relocateAll_id : ∀ ss : List Stmt, Stmt.relocateAll id ss = ss
  | [] => rfl
  | s :: ss => by rw [Stmt.relocateAll, Stmt.relocate_id s, Stmt.relocateAll_id ss]

end

@[simp] theorem Expr.isTarget_relocate (f : Position → Position) (e : Expr) :
    (e.relocate f).isTarget = e.isTarget := by
  cases e <;> rfl

end Easel
