import Easel.Proofs.Script.Hygiene

/-!
# Assignments in drawing functions

A name of the program is assigned in a script where a sign of assignment stands right behind it
(`Script.targets`).  The script of an expression assigns exactly the names that the expression
assigns.  An assignment changes the binding of the innermost function that declares what is written
there (`Script.binding`), and so in the fields of a shape it changes the binding from outside only
if the name is none that drawing functions declare; another name is a parameter of the innermost
function, and the assignment ends there: `script_targets`.
-/

namespace Easel

open Script

namespace Script

/-! ## Names that are assigned -/

/-- For each name of the program, whether it is assigned. -/
def assigned : List Content → List Bool
  | [] => []
  | c :: cs =>
    if c.isName then (c.spelling?.isSome && cs.head? == some (.code " = ")) :: assigned cs
    else assigned cs

/-- The names of the program that are assigned in a script, with the frames around them. -/
def targets (s : Script) : List (Content × List Frame) :=
  (((occurrences s).zip (assigned s.contents)).filter Prod.snd).map Prod.fst

section Targets

variable {s s' : Script} {cs cs' : List Content}

theorem length_assigned (cs : List Content) :
    (assigned cs).length = (cs.filter Content.isName).length := by
  induction cs with
  | nil => rfl
  | cons c cs ih => cases h : c.isName <;> simp [assigned, h, ih]

theorem map_fst_located (after : List Content) (fs : List Frame) (cs : List Content) :
    (located after fs cs).map Prod.fst = cs := by
  induction cs generalizing fs with
  | nil => rfl
  | cons c cs ih => rw [located, List.map_cons, ih]

theorem length_occurrences (s : Script) :
    (occurrences s).length = (assigned s.contents).length := by
  have hnames : (occurrences s).map Prod.fst = s.contents.filter Content.isName := by
    conv_rhs => rw [← map_fst_located [] [] s.contents]
    rw [List.filter_map]
    rfl
  rw [length_assigned, ← hnames, List.length_map]

theorem assigned_append
    (h : cs.getLast?.bind Content.spelling? = none ∨ cs'.head? ≠ some (.code " = ")) :
    assigned (cs ++ cs') = assigned cs ++ assigned cs' := by
  induction cs with
  | nil => rfl
  | cons c cs ih =>
    cases cs with
    | nil =>
      have hlast : (c.spelling?.isSome && cs'.head? == some (.code " = ")) = false := by
        rcases h with h | h
        · have hspelling : c.spelling? = none := h
          simp [hspelling]
        · simp [h]
      cases hname : c.isName <;> simp [assigned, hname, hlast]
    | cons c' cs =>
      have hrest := ih h
      cases hname : c.isName <;> simp [assigned, hname] at hrest ⊢ <;> simp [hrest]

theorem collects_targets : Collects targets where
  append {s s'} hs hjoin := by
    rw [targets, occurrences_append hs, contents_append, assigned_append hjoin,
      List.zip_append (length_occurrences s), List.filter_append, List.map_append]
    rfl
  code _ := rfl
  lineEnd := rfl

/-- A name with a sign of assignment behind it. -/
theorem targets_assignment (name spelling : String) (s : Script) :
    targets (use name spelling ++ code " = " ++ s) = (.use name spelling, []) :: targets s := by
  rw [collects_targets.append_of_sealed ((steady_use name spelling).append (steady_code " = ")) rfl]
  rfl

theorem targets_polygonLoop : targets polygonLoop = [] := by
  rw [targets, occurrences_polygonLoop]
  rfl

end Targets

/-! ## Drawing functions -/

section Drawing

variable {body : Script} (outer names : List String)

theorem assigned_eq_nil {cs : List Content} (h : ∀ c ∈ cs, c.isName = false) :
    assigned cs = [] := by
  rw [← List.length_eq_zero_iff, length_assigned, List.length_eq_zero_iff, List.filter_eq_nil_iff]
  exact fun c hc => by simp [h c hc]

theorem eq_false_of_mem_assigned {cs : List Content} (h : .code " = " ∉ cs) {b : Bool}
    (hb : b ∈ assigned cs) : b = false := by
  induction cs with
  | nil => cases hb
  | cons c cs ih =>
    have hnext : (cs.head? == some (.code " = ")) = false :=
      beq_false_of_ne fun heq => h (List.mem_cons_of_mem c (List.mem_of_mem_head? heq))
    have hrest := ih fun hmem => h (List.mem_cons_of_mem c hmem)
    cases hname : c.isName with
    | false => exact hrest (by simpa [assigned, hname] using hb)
    | true => exact (by simpa [assigned, hname, hnext] using hb : b = false ∨ _).elim id hrest

theorem assigned_drawingFunction (body : Script) :
    assigned (drawingFunction names body).contents = assigned body.contents := by
  have hparameters : assigned (contents
      (commaSeparated (names.map fun n => bind (captureName n) .pattern))) = [] := by
    refine assigned_eq_nil fun c hc => ?_
    rcases mem_contents_commaSeparated hc with rfl | ⟨s, hs, hc⟩
    · rfl
    · obtain ⟨n, -, rfl⟩ := List.mem_map.1 hs
      rw [contents_bind, List.mem_singleton] at hc
      rw [hc]
      rfl
  simp only [drawingFunction, contents_append, contents_code, contents_lineEnd, contents_indented,
    contents_line, List.append_assoc, List.cons_append, List.nil_append]
  rw [assigned, assigned_append (.inr (by simp)), hparameters]
  simp only [assigned, Content.isName, Bool.false_eq_true, if_false, List.nil_append]
  rw [assigned_append (.inr (by simp))]
  exact List.append_nil _

theorem assigned_drawing (body : Script) : assigned (drawing outer names body).contents =
    assigned body.contents ++ assigned (drawingArguments outer names).contents := by
  rw [drawing_eq, contents_append, contents_inScope, List.cons_append, List.append_assoc, assigned,
    assigned_append (.inr (by simp)), assigned_drawingFunction]
  rfl

/-- Only what is drawn is assigned, not the arguments. -/
theorem targets_drawing (h : Steady body) : targets (drawing outer names body) =
    (targets body).map (within (drawingFrame outer names body)) := by
  have harguments : .code " = " ∉ (drawingArguments outer names).contents := by
    simp only [drawingArguments, between, contents_append, contents_code, List.mem_append,
      List.mem_singleton]
    rintro ((heq | hmem) | heq)
    · exact absurd heq (by decide)
    · rcases mem_contents_commaSeparated hmem with heq | ⟨s, hs, hmem⟩
      · exact absurd heq (by decide)
      · obtain ⟨n, -, rfl⟩ := List.mem_map.1 hs
        cases List.mem_singleton.1 hmem
    · exact absurd heq (by decide)
  have hnone (xs : List (Content × List Frame)) :
      (xs.zip (assigned (drawingArguments outer names).contents)).filter Prod.snd = [] := by
    refine List.filter_eq_nil_iff.2 ?_
    rintro ⟨x, b⟩ hmem
    simpa using eq_false_of_mem_assigned harguments (List.of_mem_zip hmem).2
  rw [targets, assigned_drawing, occurrences_drawing outer names h,
    List.zip_append (by rw [List.length_map, length_occurrences]), List.filter_append, hnone,
    List.append_nil, List.zip_map_left, List.filter_map, List.map_map, targets, List.map_map]
  rfl

end Drawing

end Script

/-! ## Expressions -/

/-- The expression assigns the name in fields that are drawn, inside the shapes `ss`, the innermost
first. -/
inductive Expr.Assigns : Expr → String → List Shape → Prop
  | assign (id : Ident) (value : Expr) : Assigns (.assign (.ident id) value) id.name []
  | child {e c : Expr} {n : String} {ss : List Shape} (hc : c ∈ e.children) (h : Assigns c n ss) :
      Assigns e n ss
  | field {p : Position} {s : Shape} {f : Expr} {n : String} {ss : List Shape} (hf : f ∈ s.fields)
      (h : Assigns f n ss) : Assigns (.shape p s) n (ss ++ [s])

/-- The expression has the target, where the names `captured` are. -/
def Expr.HasTarget (captured : List String) (e : Expr) (x : Content × List Frame) : Prop :=
  ∃ n ss, e.Assigns n ss ∧
    x = (.use n (spell (ss.flatMap Shape.captured ++ captured) n), Shape.frames captured ss)

section Targets

variable {captured : List String} {x : Content × List Frame}

theorem Expr.hasTarget_of_children {e : Expr} (hassign : ∀ target value, e ≠ .assign target value)
    (hshape : ∀ p s, e ≠ .shape p s) :
    e.HasTarget captured x ↔ ∃ c ∈ e.children, c.HasTarget captured x := by
  constructor
  · rintro ⟨n, ss, h, rfl⟩
    cases h with
    | assign id value => exact absurd rfl (hassign _ _)
    | child hc h => exact ⟨_, hc, n, ss, h, rfl⟩
    | field hf h => exact absurd rfl (hshape _ _)
  · rintro ⟨c, hc, n, ss, h, rfl⟩
    exact ⟨n, ss, .child hc h, rfl⟩

theorem Expr.hasTarget_assign {target value : Expr} :
    (Expr.assign target value).HasTarget captured x ↔
      (∃ id, target = .ident id ∧ x = (.use id.name (spell captured id.name), [])) ∨
        target.HasTarget captured x ∨ value.HasTarget captured x := by
  constructor
  · rintro ⟨n, ss, h, rfl⟩
    cases h with
    | assign id value => exact .inl ⟨id, rfl, rfl⟩
    | child hc h =>
      rcases List.mem_pair.1 hc with rfl | rfl
      · exact .inr (.inl ⟨n, ss, h, rfl⟩)
      · exact .inr (.inr ⟨n, ss, h, rfl⟩)
  · rintro (⟨id, rfl, rfl⟩ | ⟨n, ss, h, rfl⟩ | ⟨n, ss, h, rfl⟩)
    · exact ⟨_, _, .assign id value, rfl⟩
    · exact ⟨n, ss, .child (List.mem_pair.2 (.inl rfl)) h, rfl⟩
    · exact ⟨n, ss, .child (List.mem_pair.2 (.inr rfl)) h, rfl⟩

theorem Expr.hasTarget_shape {p : Position} {s : Shape} :
    (Expr.shape p s).HasTarget captured x ↔
      ∃ f ∈ s.fields, ∃ y, f.HasTarget (s.captured ++ captured) y ∧
        within (s.frame captured) y = x := by
  have hframes (ss : List Shape) (n : String) :
      (Content.use n (spell ((ss ++ [s]).flatMap Shape.captured ++ captured) n),
        Shape.frames captured (ss ++ [s])) =
      within (s.frame captured)
        (.use n (spell (ss.flatMap Shape.captured ++ (s.captured ++ captured)) n),
          Shape.frames (s.captured ++ captured) ss) := by
    simp [within, Shape.frames_concat]
  constructor
  · rintro ⟨n, ss, h, rfl⟩
    cases h with
    | child hc _ => cases hc
    | field hf h => exact ⟨_, hf, _, ⟨n, _, h, rfl⟩, (hframes _ n).symm⟩
  · rintro ⟨f, hf, y, ⟨n, ss, h, rfl⟩, rfl⟩
    exact ⟨n, _, .field hf h, (hframes ss n).symm⟩

end Targets

/-- The targets in the script of the expression are what it assigns. -/
def Expr.Targeted (e : Expr) : Prop :=
  ∀ captured nested x, x ∈ targets (e.script captured nested) ↔ e.HasTarget captured x

/-- Only a name can be a target that ends in a name. -/
theorem Expr.sealed_target {e : Expr} (h : e.isTarget = true) (hident : ∀ id, e ≠ .ident id)
    (captured : List String) (nested : Bool) : Sealed (e.script captured nested) := by
  cases e with
  | member => exact sealed_append_code _ _
  | index base key =>
    rw [Expr.script, between, ← List.append_assoc]
    exact sealed_append_code _ _
  | ident id => exact absurd rfl (hident id)
  | _ => cases h

theorem Expr.targeted_of_children {e : Expr} (hassign : ∀ target value, e ≠ .assign target value)
    (hshape : ∀ p s, e ≠ .shape p s) (h : ∀ c ∈ e.children, c.Targeted) : e.Targeted := by
  intro captured nested x
  rw [collects_targets.script_nested, Expr.hasTarget_of_children hassign hshape]
  by_cases hident : ∃ id, e = .ident id
  · obtain ⟨id, rfl⟩ := hident
    exact iff_of_false List.not_mem_nil fun ⟨c, hc, _⟩ => List.not_mem_nil hc
  · push Not at hident
    rw [collects_targets.script_of_children hident hshape fun target value he =>
      absurd he (hassign target value), List.mem_flatMap]
    exact exists_congr fun c => and_congr_right fun hc => h c hc captured true x

theorem Expr.targeted_assign {target value : Expr} (htarget : target.isTarget = true)
    (ht : target.Targeted) (hv : value.Targeted) : (Expr.assign target value).Targeted := by
  intro captured nested x
  rw [collects_targets.script_nested, Expr.hasTarget_assign, ← ht captured true,
    ← hv captured true]
  by_cases hident : ∃ id, target = .ident id
  · obtain ⟨id, rfl⟩ := hident
    have htargets : targets ((Expr.assign (.ident id) value).script captured true) =
        (.use id.name (spell captured id.name), []) :: targets (value.script captured true) := by
      rw [← collects_targets.script_nested _ false, ← collects_targets.script_nested value false]
      exact targets_assignment _ _ _
    have hname : targets ((Expr.ident id).script captured true) = [] := rfl
    simp [htargets, hname]
  · push Not at hident
    have hsealed := Expr.sealed_target htarget hident captured true
    have hsign : targets (target.script captured true ++ code " = ") =
        targets (target.script captured true) := by
      rw [collects_targets.append_of_sealed (by simp) hsealed, collects_targets.code,
        List.append_nil]
    rw [collects_targets.script_of_children (by simp) (by simp) (by simpa using hsign)]
    simp [children, hident]

theorem Expr.hereditary_targeted : Hereditary (fun _ => True) Targeted where
  leaf _ e he := by
    unfold Parser.leaf? at he
    split at he <;> cases he
    all_goals exact targeted_of_children (by simp) (by simp) (List.forall_mem_nil _)
  number _ v := targeted_of_children (by simp) (by simp) (List.forall_mem_nil _)
  array _ es h := targeted_of_children (by simp) (by simp) h
  object _ ps h := targeted_of_children (by simp) (by simp) (List.forall_mem_map.2 h)
  negate _ e h := targeted_of_children (by simp) (by simp) (List.forall_mem_singleton.2 h)
  binary _ op l r hl hr := targeted_of_children (by simp) (by simp) (by simp [children, hl, hr])
  assign := Expr.targeted_assign
  call hc hargs := targeted_of_children (by simp) (by simp) (List.forall_mem_cons.2 ⟨hc, hargs⟩)
  member hb _ := targeted_of_children (by simp) (by simp) (List.forall_mem_singleton.2 hb)
  index hb hk := targeted_of_children (by simp) (by simp) (by simp [children, hb, hk])
  shape _ s h _ captured nested x := by
    have hbody (y : Content × List Frame) := collects_targets.mem_body (fun _ _ => rfl)
      targets_polygonLoop s (s.captured ++ captured) (x := y)
    rw [Expr.hasTarget_shape, Expr.script, targets_drawing _ _ (s.steady_body _), s.drawingFrame_eq,
      List.mem_map]
    constructor
    · rintro ⟨y, hy, rfl⟩
      obtain ⟨f, hf, hy⟩ := (hbody y).1 hy
      exact ⟨f, hf, y, (h f (s.fields_subset hf) _ true y).1 hy, rfl⟩
    · rintro ⟨f, hf, y, hy, rfl⟩
      exact ⟨y, (hbody y).2 ⟨f, hf, (h f (s.fields_subset hf) _ true y).2 hy⟩, rfl⟩

theorem Expr.Produced.targeted {e : Expr} (h : e.Produced) : e.Targeted := by
  obtain ⟨_, n, ts, -, hread⟩ := h
  exact Parser.yields_expressionWithin Expr.hereditary_targeted n trivial ts (fun _ _ => trivial) e
    hread

/-! ## Bindings -/

/-- The binding that a name stands for inside frames: that of the first frame that declares it. -/
def Script.binding (fs : List Frame) (spelling : String) : String × List Frame :=
  (spelling, fs.dropWhile fun f => spelling ∉ f.declared.map Prod.fst)

section Bindings

variable {e : Expr} {n : String} {ss : List Shape}

theorem Script.binding_append {fs : List Frame} (h : ∀ f ∈ fs, n ∉ f.declared.map Prod.fst)
    (around : List Frame) : binding (fs ++ around) n = binding around n := by
  rw [binding, List.dropWhile_append_of_pos fun f hf => by simpa using h f hf]
  rfl

theorem Script.binding_cons {f : Frame} (h : n ∈ f.declared.map Prod.fst) (fs : List Frame) :
    binding (f :: fs) n = (n, f :: fs) := by
  rw [binding, List.dropWhile_cons_of_neg (by simpa using h)]

theorem Expr.Assigns.mentions (h : e.Assigns n ss) : e.Mentions n ss := by
  induction h with
  | assign id value => exact .child (List.mem_pair.2 (.inl rfl)) (.ident id)
  | child hc _ ih => exact .child hc ih
  | field hf _ ih => exact .field hf ih

theorem Shape.mem_captured_of_argument? {s : Shape} {captured : List String} {argument : String}
    (h : (s.frame captured).argument? (captureName n) = some argument) : n ∈ s.captured := by
  by_contra hn
  have hnone : (s.frame captured).argument? (captureName n) = none := by
    refine List.lookup_eq_none_iff.2 fun p hp => ?_
    obtain ⟨m, hm, rfl⟩ := List.mem_map.1 hp
    have hne : captureName n ≠ captureName m := fun heq => hn (captureName_injective heq ▸ hm)
    simpa using hne
  rw [hnone] at h
  cases h

theorem Shape.captureName_mem_declared {s : Shape} (captured : List String) (h : n ∈ s.captured) :
    captureName n ∈ (s.frame captured).declared.map Prod.fst := by
  rw [frame, List.map_map]
  exact List.mem_map_of_mem (List.mem_append_left _ (List.mem_map_of_mem h))

/-- No function around a name that is no drawing local declares it. -/
theorem Expr.Uses.not_mem_declared {spelling : String} {fs : List Frame} (he : e.Named)
    (h : e.Uses [] n spelling fs) (hn : n ∉ drawingLocals) :
    ∀ f ∈ fs, n ∉ f.declared.map Prod.fst := by
  intro f hf
  obtain ⟨inner, outer, rfl⟩ := List.append_of_mem hf
  have hrespects := h.respects he (List.suffix_append inner (f :: outer))
  rw [Frame.Respects, if_neg hn] at hrespects
  exact hrespects.2

/-- The target of a name that is no drawing local has the binding from outside. -/
theorem Expr.Assigns.binding_of_not_mem (he : e.Named) (h : e.Assigns n ss)
    (hn : n ∉ drawingLocals) (around : List Frame) :
    binding (Shape.frames [] ss ++ around) (spellingIn (Shape.frames [] ss) n) =
      binding around n := by
  have huses : e.Uses [] n _ (Shape.frames [] ss) := h.mentions.uses
  rw [spellingIn_of_not_mem _ hn, Script.binding_append (huses.not_mem_declared he hn)]

/-- The target of a drawing local is a parameter of the innermost function. -/
theorem Expr.Assigns.binding_of_mem {s : Shape} (he : e.Named) (h : e.Assigns n (s :: ss))
    (hn : n ∈ drawingLocals) :
    (s.frame (ss.flatMap Shape.captured ++ [])).argument? (captureName n) =
        some (spellingIn (Shape.frames [] ss) n) ∧
      ∀ around, binding (Shape.frames [] (s :: ss) ++ around)
          (spellingIn (Shape.frames [] (s :: ss)) n) =
        (captureName n, Shape.frames [] (s :: ss) ++ around) := by
  have huses : e.Uses [] n _ (Shape.frames [] (s :: ss)) := h.mentions.uses
  have hargument := huses.respects he List.suffix_rfl
  rw [Frame.Respects, if_pos hn] at hargument
  refine ⟨hargument, fun around => ?_⟩
  rw [Shape.frames, spellingIn_cons, spell_of_mem hn]
  exact Script.binding_cons
    (Shape.captureName_mem_declared _ (Shape.mem_captured_of_argument? hargument)) _

end Bindings

/-- The names with a sign of assignment behind them in the script of an expression are exactly those
that the expression assigns.  In the fields of a shape such a target has the binding that the name
has outside the outermost shape exactly if it is no drawing local; the target of a drawing local is
the parameter of the innermost function. -/
theorem script_targets {e : Expr} (he : e.Produced) (nested : Bool) :
    (∀ x, x ∈ targets (e.script [] nested) ↔ ∃ n ss, e.Assigns n ss ∧
      x = (.use n (spellingIn (Shape.frames [] ss) n), Shape.frames [] ss)) ∧
    ∀ n ss, e.Assigns n ss →
      let fs := Shape.frames [] ss
      ((∀ around, binding (fs ++ around) (spellingIn fs n) = binding around n) ↔
        ss = [] ∨ n ∉ drawingLocals) ∧
      (ss ≠ [] → n ∈ drawingLocals → ∃ f outer, fs = f :: outer ∧
        f.argument? (captureName n) = some (spellingIn outer n) ∧
        ∀ around, binding (fs ++ around) (spellingIn fs n) = (captureName n, fs ++ around)) := by
  refine ⟨fun x => ?_, fun n ss h => ?_⟩
  · rw [he.targeted, Expr.HasTarget]
    refine exists_congr fun n => exists_congr fun ss => and_congr_right fun h => ?_
    have huses : e.Uses [] n _ (Shape.frames [] ss) := h.mentions.uses
    rw [huses.spelling_eq_spellingIn]
  by_cases hn : n ∈ drawingLocals
  · cases ss with
    | nil => exact ⟨iff_of_true (fun _ => rfl) (.inl rfl), fun hss => absurd rfl hss⟩
    | cons s ss =>
      obtain ⟨hargument, hbinding⟩ := h.binding_of_mem he.named hn
      refine ⟨iff_of_false (fun hall => ?_) (by simp [hn]),
        fun _ _ => ⟨_, _, rfl, hargument, hbinding⟩⟩
      have hname : captureName n = n := congrArg Prod.fst ((hbinding []).symm.trans (hall []))
      simpa [captureName] using congrArg String.length hname
  · exact ⟨iff_of_true (h.binding_of_not_mem he.named hn) (.inr hn), fun _ hmem => absurd hmem hn⟩

/-- A circle assigns its own `x`, where the assignment ends, and another name outside. -/
theorem script_targets_circle :
    let a : Nat → Expr := fun column => .ident ⟨⟨1, column⟩, "a"⟩
    let s : Shape := .circle (.assign (.ident ⟨⟨1, 12⟩, "x"⟩) (a 16))
      (.assign (.ident ⟨⟨1, 19⟩, "n"⟩) (a 23)) (a 31) (a 39)
    let e : Expr := .shape ⟨1, 1⟩ s
    let fs := Shape.frames [] [s]
    e.Produced ∧
    (.use "x" "x$", fs) ∈ targets (e.script [] false) ∧
    (.use "n" "n", fs) ∈ targets (e.script [] false) ∧
    ∀ around, binding (fs ++ around) "x$" = ("x$", fs ++ around) ∧
      binding (fs ++ around) "n" = binding around "n" := by
  intro a s e fs
  have he : e.Produced :=
    ⟨"circle at (x = a, n = a) size a color a", 9, _, List.suffix_rfl, by
      dsimp only [e, s, a]
      eq_refl⟩
  have hx : e.Assigns "x" ([] ++ [s]) := .field (.head _) (.assign _ _)
  have hn : e.Assigns "n" ([] ++ [s]) := .field (.tail _ (.head _)) (.assign _ _)
  have hspelling : spellingIn fs "x" = "x$" := by decide +kernel
  have hspelling' : spellingIn fs "n" = "n" := by decide +kernel
  obtain ⟨hshown, hall⟩ := script_targets he false
  obtain ⟨-, -, -, -, hinner⟩ := (hall _ _ hx).2 (by simp) (by decide)
  have houter := (hall _ _ hn).1.2 (.inr (by decide))
  have hxtarget := (hshown _).2 ⟨_, _, hx, rfl⟩
  have hntarget := (hshown _).2 ⟨_, _, hn, rfl⟩
  rw [List.nil_append, hspelling] at hxtarget hinner
  rw [List.nil_append, hspelling'] at hntarget houter
  exact ⟨he, hxtarget, hntarget, fun around => ⟨hinner around, houter around⟩⟩

end Easel
