import Easel.Proofs.Script.Pieces

/-!
# What the script of an expression says

A call or an access is written behind its base without parentheses, also where the base is a
negation, so there the minus sign applies to the whole.  `Expr.rereadWith` gives the expression that
a script says, together with the calls and accesses that stand behind it.  It is the expression
itself exactly if no call and no access has a negation as its base: `exists_reread_iff`.
-/

namespace Easel

namespace Expr

mutual

/-- The expression that a script says. What stands behind the script extends its last operand by
`k`; an assignment to something else than a target says nothing. -/
def rereadWith : Expr → (Expr → Option Expr) → Option Expr
  | .array p elements, k => (rereadAll elements).bind fun elements' => k (.array p elements')
  | .negate p operand, k =>
    (if operand.isNegation then (operand.rereadWith some).bind k else operand.rereadWith k).map
      (.negate p)
  | .binary p op left right, k =>
    (left.rereadWith some).bind fun left' => (right.rereadWith some).bind fun right' =>
      k (.binary p op left' right')
  | .assign target value, k =>
    (target.rereadWith some).bind fun target' =>
      if target'.isTarget then (value.rereadWith some).bind fun value' => k (.assign target' value')
      else none
  | .call callee args, k =>
    callee.rereadWith fun callee' => (rereadAll args).bind fun args' => k (.call callee' args')
  | .member base property, k => base.rereadWith fun base' => k (.member base' property)
  | .index base key, k =>
    base.rereadWith fun base' => (key.rereadWith some).bind fun key' => k (.index base' key')
  | e, k => k e

/-- The expressions that several scripts say. -/
def rereadAll : List Expr → Option (List Expr)
  | [] => some []
  | e :: rest =>
    (e.rereadWith some).bind fun e' => (rereadAll rest).bind fun rest' => some (e' :: rest')

end

/-- The expression that the script of an expression says by itself. -/
def reread (e : Expr) : Option Expr := e.rereadWith some

mutual

/-- Whether no call and no access in a plain expression has a negation as its base. -/
def unsignedBases : Expr → Bool
  | .array _ elements => unsignedBasesAll elements
  | .negate _ operand => operand.unsignedBases
  | .binary _ _ left right => left.unsignedBases && right.unsignedBases
  | .assign target value => target.unsignedBases && value.unsignedBases
  | .call callee args => !callee.isNegation && callee.unsignedBases && unsignedBasesAll args
  | .member base _ => !base.isNegation && base.unsignedBases
  | .index base key => !base.isNegation && base.unsignedBases && key.unsignedBases
  | _ => true

/-- Whether this holds of each of several expressions. -/
def unsignedBasesAll : List Expr → Bool
  | [] => true
  | e :: rest => e.unsignedBases && unsignedBasesAll rest

end

theorem rereadAll_eq_mapM (es : List Expr) : rereadAll es = es.mapM reread := by
  induction es with
  | nil => rfl
  | cons e es ih =>
    rw [rereadAll, List.mapM_cons, ← ih]
    rfl

/-- Whether the script of a nested expression starts with a minus sign. -/
def signed : Expr → Bool
  | .negate _ _ => true
  | .call base _ | .member base _ | .index base _ => base.signed
  | _ => false

theorem signed_of_isNegation {e : Expr} (h : e.isNegation = true) : e.signed = true := by
  cases e with
  | negate => rfl
  | _ => cases h

variable {e : Expr}

/-- Calls and accesses are not read as such behind a minus sign. -/
theorem isNegation_of_signed (h : e.Writable) (hs : e.signed = true) {k : Expr → Option Expr}
    {r : Expr} (hr : e.rereadWith k = some r) : r.isNegation = true := by
  induction h generalizing k r with
  | negate =>
    obtain ⟨a, -, rfl⟩ := Option.map_eq_some_iff.1 hr
    rfl
  | call _ _ ih | member _ _ ih | index _ _ ih => exact ih hs hr
  | _ => cases hs

/-- Without a minus sign, what stands behind a script extends all of it. -/
theorem bind_rereadWith (h : e.Writable) (hs : e.signed = false) (k k' : Expr → Option Expr) :
    (e.rereadWith k).bind k' = e.rereadWith fun r => (k r).bind k' := by
  induction h generalizing k with
  | negate => cases hs
  | array | binary => simp only [rereadWith, Option.bind_assoc]
  | assign =>
    simp only [rereadWith, Option.bind_assoc]
    congr 1
    funext target'
    split_ifs
    · rw [Option.bind_assoc]
    · rfl
  | call _ _ ih | member _ _ ih | index _ _ ih => simp [rereadWith, ih hs, Option.bind_assoc]
  | _ => rfl

theorem rereadWith_of_unsigned (h : e.Writable) (hs : e.signed = false) (k : Expr → Option Expr) :
    e.rereadWith k = e.reread.bind k :=
  (bind_rereadWith h hs some k).symm

/-- An expression that starts with a minus sign is a negation, unless a base in it is one. -/
theorem signed_of_unsignedBases (h : e.Writable) (hb : e.unsignedBases = true)
    (hn : e.isNegation = false) : e.signed = false := by
  induction h with
  | negate => cases hn
  | call _ _ ih | member _ _ ih | index _ _ ih =>
    simp only [unsignedBases, Bool.and_eq_true, Bool.not_eq_true'] at hb
    exact ih (by simp [hb]) (by simp [hb])
  | _ => rfl

/-! ## Expressions that scripts say as they are -/

theorem unsignedBasesAll_iff {es : List Expr} :
    unsignedBasesAll es = true ↔ ∀ e ∈ es, e.unsignedBases = true := by
  induction es with
  | nil => simp [unsignedBasesAll]
  | cons e es ih => simp [unsignedBasesAll, ih]

mutual

theorem unsignedBases_relocate (f : Position → Position) :
    ∀ e : Expr, (e.relocate f).unsignedBases = e.unsignedBases
  | .ident _ | .number _ _ | .string _ _ | .color _ _ | .bool _ _ | .null _ | .object _ _
  | .shape _ _ => rfl
  | .array _ elements => unsignedBasesAll_relocate f elements
  | .negate _ operand => unsignedBases_relocate f operand
  | .member base _ => by simp [relocate, unsignedBases, unsignedBases_relocate f base]
  | .binary _ _ left right | .assign left right | .index left right => by
    simp [relocate, unsignedBases, unsignedBases_relocate f left, unsignedBases_relocate f right]
  | .call callee args => by
    simp [relocate, unsignedBases, unsignedBases_relocate f callee,
      unsignedBasesAll_relocate f args]

theorem unsignedBasesAll_relocate (f : Position → Position) :
    ∀ es : List Expr, unsignedBasesAll (relocateAll f es) = unsignedBasesAll es
  | [] => rfl
  | e :: rest => by
    rw [relocateAll, unsignedBasesAll, unsignedBasesAll, unsignedBases_relocate f e,
      unsignedBasesAll_relocate f rest]

end

theorem rereadAll_of_forall {es : List Expr} (h : ∀ e ∈ es, e.reread = some e) :
    rereadAll es = some es := by
  induction es with
  | nil => rfl
  | cons e es ih =>
    obtain ⟨he, hes⟩ := List.forall_mem_cons.1 h
    rw [rereadAll, ← reread, he, Option.bind_some, ih hes, Option.bind_some]

theorem reread_negate (p : Position) (a : Expr) :
    (negate p a).reread = a.reread.map (.negate p) := by
  simp only [reread, rereadWith, ite_self, Option.bind_fun_some]

/-- Where no base is a negation, the script says the expression itself. -/
theorem reread_of_unsignedBases (h : e.Writable) (hb : e.unsignedBases = true) :
    e.reread = some e := by
  induction h with
  | array hes ih =>
    have hall := unsignedBasesAll_iff.1 hb
    rw [reread, rereadWith, rereadAll_of_forall fun e he => ih e he (hall e he), Option.bind_some]
  | negate _ ih => rw [reread_negate, ih hb, Option.map_some]
  | binary op _ _ ihl ihr =>
    simp only [unsignedBases, Bool.and_eq_true] at hb
    rw [reread, rereadWith, ← reread, ← reread, ihl hb.1, Option.bind_some, ihr hb.2,
      Option.bind_some]
  | assign htarget _ _ iht ihv =>
    simp only [unsignedBases, Bool.and_eq_true] at hb
    rw [reread, rereadWith, ← reread, ← reread, iht hb.1, Option.bind_some, if_pos htarget,
      ihv hb.2, Option.bind_some]
  | call hc _ ihc ihargs =>
    simp only [unsignedBases, Bool.and_eq_true, Bool.not_eq_true'] at hb
    have hall := unsignedBasesAll_iff.1 hb.2
    rw [reread, rereadWith, rereadWith_of_unsigned hc (signed_of_unsignedBases hc hb.1.2 hb.1.1),
      ihc hb.1.2, Option.bind_some, rereadAll_of_forall fun a ha => ihargs a ha (hall a ha),
      Option.bind_some]
  | member hbase _ ih =>
    simp only [unsignedBases, Bool.and_eq_true, Bool.not_eq_true'] at hb
    rw [reread, rereadWith, rereadWith_of_unsigned hbase (signed_of_unsignedBases hbase hb.2 hb.1),
      ih hb.2, Option.bind_some]
  | index hbase _ ihb ihk =>
    simp only [unsignedBases, Bool.and_eq_true, Bool.not_eq_true'] at hb
    rw [reread, rereadWith,
      rereadWith_of_unsigned hbase (signed_of_unsignedBases hbase hb.1.2 hb.1.1), ihb hb.1.2,
      Option.bind_some, ← reread, ihk hb.2, Option.bind_some]
  | _ => rfl

theorem unsignedBases_of_rereadAll {es : List Expr}
    (h : ∀ e ∈ es, ∀ r, e.reread = some r → r.relocate (fun _ => {}) = e → e.unsignedBases = true)
    {rs : List Expr} (hrs : rereadAll es = some rs) (heq : relocateAll (fun _ => {}) rs = es) :
    unsignedBasesAll es = true := by
  induction es generalizing rs with
  | nil => rfl
  | cons e es ih =>
    obtain ⟨he, hes⟩ := List.forall_mem_cons.1 h
    obtain ⟨r, hr, hrest⟩ := Option.bind_eq_some_iff.1 hrs
    obtain ⟨rs', hrs', hcons⟩ := Option.bind_eq_some_iff.1 hrest
    cases hcons
    obtain ⟨heq, heqs⟩ := List.cons.inj heq
    rw [unsignedBasesAll, he r hr heq, ih hes hrs' heqs, Bool.true_and]

/-- A base whose script starts with a minus sign is lost. -/
theorem signed_of_reread {base r : Expr} (hbase : base.Writable) {k : Expr → Option Expr}
    (hr : base.rereadWith k = some r) (hn : (r.relocate fun _ => {}).isNegation = false) :
    base.signed = false ∧ base.isNegation = false := by
  have hs : base.signed = false := by
    by_contra hs
    have hneg := isNegation_of_signed hbase (Bool.not_eq_false _ ▸ hs) hr
    rw [isNegation_relocate, hneg] at hn
    cases hn
  refine ⟨hs, ?_⟩
  by_contra hneg
  rw [signed_of_isNegation (Bool.not_eq_false _ ▸ hneg)] at hs
  cases hs

/-- A script that says the expression itself, up to positions, has no negation as a base. -/
theorem unsignedBases_of_reread (h : e.Writable) {r : Expr} (hr : e.reread = some r)
    (heq : r.relocate (fun _ => {}) = e) : e.unsignedBases = true := by
  induction h generalizing r with
  | array _ ih =>
    obtain ⟨rs, hrs, hr⟩ := Option.bind_eq_some_iff.1 hr
    cases hr
    exact unsignedBases_of_rereadAll (fun e he r => ih e he) hrs (Expr.array.inj heq).2
  | negate _ ih =>
    rw [reread_negate] at hr
    obtain ⟨a, ha, rfl⟩ := Option.map_eq_some_iff.1 hr
    exact ih ha (Expr.negate.inj heq).2
  | binary op _ _ ihl ihr =>
    obtain ⟨left, hleft, hr⟩ := Option.bind_eq_some_iff.1 hr
    obtain ⟨right, hright, hjoin⟩ := Option.bind_eq_some_iff.1 hr
    cases hjoin
    obtain ⟨-, -, heql, heqr⟩ := Expr.binary.inj heq
    rw [unsignedBases, ihl hleft heql, ihr hright heqr, Bool.true_and]
  | assign _ _ _ iht ihv =>
    obtain ⟨t, ht, hr⟩ := Option.bind_eq_some_iff.1 hr
    split_ifs at hr
    obtain ⟨v, hv, hjoin⟩ := Option.bind_eq_some_iff.1 hr
    cases hjoin
    obtain ⟨heqt, heqv⟩ := Expr.assign.inj heq
    rw [unsignedBases, iht ht heqt, ihv hv heqv, Bool.true_and]
  | call hc _ ihc ihargs =>
    obtain ⟨hs, hn⟩ := signed_of_reread hc hr (by rw [heq]; rfl)
    rw [reread, rereadWith, rereadWith_of_unsigned hc hs] at hr
    obtain ⟨c, hcallee, hr⟩ := Option.bind_eq_some_iff.1 hr
    obtain ⟨rs, hrs, hjoin⟩ := Option.bind_eq_some_iff.1 hr
    cases hjoin
    obtain ⟨heqc, heqs⟩ := Expr.call.inj heq
    rw [unsignedBases, hn, ihc hcallee heqc,
      unsignedBases_of_rereadAll (fun a ha r => ihargs a ha) hrs heqs]
    rfl
  | member hb _ ih =>
    obtain ⟨hs, hn⟩ := signed_of_reread hb hr (by rw [heq]; rfl)
    rw [reread, rereadWith, rereadWith_of_unsigned hb hs] at hr
    obtain ⟨b, hbase, hjoin⟩ := Option.bind_eq_some_iff.1 hr
    cases hjoin
    rw [unsignedBases, hn, ih hbase (Expr.member.inj heq).1]
    rfl
  | index hb _ ihb ihk =>
    obtain ⟨hs, hn⟩ := signed_of_reread hb hr (by rw [heq]; rfl)
    rw [reread, rereadWith, rereadWith_of_unsigned hb hs] at hr
    obtain ⟨b, hbase, hr⟩ := Option.bind_eq_some_iff.1 hr
    obtain ⟨key, hkey, hjoin⟩ := Option.bind_eq_some_iff.1 hr
    cases hjoin
    obtain ⟨heqb, heqk⟩ := Expr.index.inj heq
    rw [unsignedBases, hn, ihb hbase heqb, ihk hkey heqk]
    rfl
  | _ => rfl

theorem relocateAll_of_forall {es : List Expr} (h : ∀ e ∈ es, e.relocate (fun _ => {}) = e) :
    relocateAll (fun _ => {}) es = es := by
  rw [relocateAll_eq_map]
  exact (List.map_congr_left h).trans (List.map_id es)

theorem relocate_of_writable (h : e.Writable) : e.relocate (fun _ => {}) = e := by
  induction h with
  | array _ ih => rw [relocate, relocateAll_of_forall ih]
  | negate _ ih => rw [relocate, ih]
  | binary _ _ _ ihl ihr => rw [relocate, ihl, ihr]
  | assign _ _ _ iht ihv => rw [relocate, iht, ihv]
  | call _ _ ihc ihargs => rw [relocate, ihc, relocateAll_of_forall ihargs]
  | member _ _ ih => rw [relocate, ih, Ident.relocate]
  | index _ _ ihb ihk => rw [relocate, ihb, ihk]
  | _ => rfl

/-- A script says its expression, up to positions, exactly if no base in it is a negation. -/
theorem exists_reread_iff (h : e.Writable) :
    (∃ r, e.reread = some r ∧ r.relocate (fun _ => {}) = e) ↔ e.unsignedBases = true :=
  ⟨fun ⟨_, hr, heq⟩ => unsignedBases_of_reread h hr heq,
    fun hb => ⟨e, reread_of_unsignedBases h hb, relocate_of_writable h⟩⟩

end Expr

end Easel
