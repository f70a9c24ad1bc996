import Easel.Proofs.Parser.Faults
import Easel.Proofs.Program.Parts

/-!
# What parsers read

`Reads quiet T Q p` says what the parser `p` does on tokens of the class `T`.  It drops tokens at the
front of its list only, and those it drops on the way to a result without a report can be passed.  It
meets its faults in order, every report is paid for by a token of its own, and a quiet parser reports
nothing.  Its value has the property `Q`.

Each parser is walked through once.  A property that passes from the parts of an expression to the
whole (`Expr.Hereditary`) holds of every expression that is read (`reads_expressionWithin`), and a
parser that succeeds at an expression leaves fewer tokens (`consumes_expressionWithin`).
-/

namespace Easel

/-- The name is that of a token of a class. -/
def Ident.From (T : Token → Prop) (id : Ident) : Prop :=
  ∃ t, T t ∧ t.kind = .identifier ∧ id = ⟨t.position, t.lexeme⟩

/-- Expressions that are read from tokens of a class have the property if their parts have it. -/
structure Expr.Hereditary (T : Token → Prop) (Q : Expr → Prop) : Prop where
  leaf {t : Token} (ht : T t) {e : Expr} (he : Parser.leaf? t = some e) : Q e
  number {t : Token} (ht : T t) (v : Numeral) : Q (.number t.position v)
  array {t : Token} (ht : T t) {es : List Expr} (h : ∀ e ∈ es, Q e) : Q (.array t.position es)
  object {t : Token} (ht : T t) {ps : List (String × Expr)} (h : ∀ q ∈ ps, Q q.2) :
    Q (.object t.position ps)
  negate {t : Token} (ht : T t) {e : Expr} (h : Q e) : Q (.negate t.position e)
  binary {t : Token} (ht : T t) (op : BinaryOp) {l r : Expr} (hl : Q l) (hr : Q r) :
    Q (.binary t.position op l r)
  assign {target value : Expr} (htarget : target.isTarget = true) (ht : Q target) (hv : Q value) :
    Q (.assign target value)
  call {callee : Expr} {args : List Expr} (hc : Q callee) (hargs : ∀ a ∈ args, Q a) :
    Q (.call callee args)
  member {base : Expr} {property : Ident} (hb : Q base) (hp : property.From T) :
    Q (.member base property)
  index {base key : Expr} (hb : Q base) (hk : Q key) : Q (.index base key)
  shape {t : Token} (ht : T t) {s : Shape} (h : ∀ e ∈ s.slots, Q e)
    (hfont : ∀ f ∈ s.font, Q (.string f.1 f.2)) : Q (.shape t.position s)

theorem Expr.hereditary_true : Hereditary (fun _ => True) fun _ => True := by
  constructor <;> intros <;> trivial

namespace Parser

variable {α β : Type}

/-! ## Runs -/

/-- A run on `ts` drops tokens at the front only, and if it succeeds without a report, they can be
passed.  Its faults are met in order, its reports are paid for, a quiet run has none, and its value
has the property. -/
@[mk_iff steps_iff] structure Steps (quiet : Prop) (Q : α → Prop) (ts : List Token)
    (o : Outcome α) : Prop where
  rest_suffix : o.rest <:+ ts
  passed : ∀ a, o.result = .ok a → o.reported = [] → Passed o.rest ts
  met : Met ts o.faults o.rest
  paid : o.reported.length + weight o.rest ≤ weight ts
  reported_eq_nil : quiet → o.reported = []
  value : ∀ a, o.result = .ok a → Q a

namespace Steps

variable {quiet : Prop} {P : α → Prop} {Q : β → Prop} {ts us vs : List Token}

theorem ok {a : α} (h : P a) : Steps quiet P ts ⟨.ok a, [], ts⟩ where
  rest_suffix := List.suffix_rfl
  passed _ _ _ := .here
  met := .done (.refl ts)
  paid := by simp
  reported_eq_nil _ := rfl
  value _ hb := by cases hb; exact h

/-- Stop at the token that comes next, perhaps once it is passed. -/
theorem error (problem : Problem) (h : Left us ts) :
    Steps quiet P ts ⟨.error ⟨(peek ts).position, problem⟩, [], us⟩ where
  rest_suffix := h.suffix
  passed _ ha := by cases ha
  met := .fault (.refl ts) rfl (.done h.ahead)
  paid := by simpa using h.weight_le
  reported_eq_nil _ := rfl
  value _ ha := by cases ha

/-- A run on what is left once tokens are dropped. -/
theorem before {o : Outcome α} (h : Steps quiet P us o) (hleft : Left us ts)
    (hpassed : ∀ a, o.result = .ok a → Passed us ts) : Steps quiet P ts o where
  rest_suffix := h.rest_suffix.trans hleft.suffix
  passed a ha hr := (hpassed a ha).trans (h.passed a ha hr)
  met := .of_ahead hleft.ahead h.met
  paid := h.paid.trans hleft.weight_le
  reported_eq_nil := h.reported_eq_nil
  value := h.value

theorem bind {p : Parser α} {f : α → Parser β} (hp : Steps quiet P ts (p ts))
    (hf : ∀ a, P a → Steps quiet Q (p ts).rest (f a (p ts).rest)) :
    Steps quiet Q ts ((p >>= f) ts) := by
  have hmet := hp.met
  cases h : (p ts).result with
  | error fault =>
    rw [faults_of_error h] at hmet
    rw [bind_of_error h]
    refine ⟨hp.rest_suffix, fun _ hb => ?_, hmet, hp.paid, hp.reported_eq_nil, fun _ hb => ?_⟩ <;>
      cases hb
  | ok a =>
    have hfa := hf a (hp.value a h)
    rw [faults_of_ok h] at hmet
    rw [bind_of_ok h, steps_iff, faults_append]
    refine ⟨hfa.rest_suffix.trans hp.rest_suffix, fun b hb hr => ?_, hmet.append hfa.met, ?_,
      fun hq => List.append_eq_nil_iff.2 ⟨hp.reported_eq_nil hq, hfa.reported_eq_nil hq⟩, hfa.value⟩
    · obtain ⟨hrp, hrf⟩ := List.append_eq_nil_iff.1 hr
      exact (hp.passed a h hrp).trans (hfa.passed b hb hrf)
    · have hpaid := hp.paid
      have hpaid' := hfa.paid
      simp only [List.length_append]
      omega

/-- Report the fault a run stopped at and go on behind it. -/
theorem resume {o : Outcome α} {more : Outcome β} {fault : Fault} (h : Steps False P us o)
    (hus : Left us ts) (hr : o.result = .error fault) (hvs : Left vs o.rest)
    (hpaid : o.reported.length + 1 + weight vs ≤ weight ts) (hmore : Steps False Q vs more) :
    Steps False Q ts ⟨more.result, o.reported ++ fault :: more.reported, more.rest⟩ := by
  have hmet := h.met
  have hpaid' := hmore.paid
  rw [faults_of_error hr] at hmet
  rw [steps_iff, List.append_cons, faults_append]
  refine ⟨hmore.rest_suffix.trans (hvs.suffix.trans (h.rest_suffix.trans hus.suffix)),
    fun _ _ hnil => by simp at hnil,
    .of_ahead hus.ahead ((hmet.then_ahead hvs.ahead).append hmore.met), ?_, False.elim, hmore.value⟩
  simp only [List.length_append, List.length_singleton]
  omega

end Steps

/-- On `ts`, if its tokens are of the class `T`, the parser reads a value with the property. -/
def ReadsAt (quiet : Prop) (T : Token → Prop) (Q : α → Prop) (ts : List Token) (p : Parser α) :
    Prop :=
  T .beyond → (∀ t ∈ ts, T t) → Steps quiet Q ts (p ts)

/-- From tokens of the class `T` the parser reads a value with the property. -/
def Reads (quiet : Prop) (T : Token → Prop) (Q : α → Prop) (p : Parser α) : Prop :=
  ∀ ts, ReadsAt quiet T Q ts p

section Rules

variable {quiet : Prop} {T : Token → Prop} {P : α → Prop} {Q : β → Prop} {ts : List Token}

namespace ReadsAt

theorem pure {a : α} (h : P a) : ReadsAt quiet T P ts (Pure.pure a) := fun _ _ => .ok h

theorem failNext (problem : Problem) : ReadsAt quiet T P ts (failAt (peek ts) problem) :=
  fun _ _ => .error problem .here

theorem failPassed (problem : Problem) :
    ReadsAt quiet T P ts (discard afterNext >>= fun _ => failAt (peek ts) problem) :=
  fun _ _ => .error problem (left_afterNext ts)

theorem bind {p : Parser α} {f : α → Parser β} (hp : ReadsAt quiet T P ts p)
    (hf : ∀ a, P a → Reads quiet T Q (f a)) : ReadsAt quiet T Q ts (p >>= f) := by
  intro hbeyond hts
  have hp := hp hbeyond hts
  exact hp.bind fun a ha => hf a ha _ hbeyond fun t ht => hts t (hp.rest_suffix.mem ht)

theorem ite {c : Prop} [Decidable c] {p q : Parser α} (hp : c → ReadsAt quiet T P ts p)
    (hq : ¬c → ReadsAt quiet T P ts q) : ReadsAt quiet T P ts (if c then p else q) := by
  split_ifs with hc
  · exact hp hc
  · exact hq hc

/-- Consume a token and go on. -/
theorem afterToken {f : Unit → Parser β} {kind : Token.Kind} (hk : (peek ts).kind = kind)
    (hpass : passable kind = true) (hf : Reads quiet T Q (f ())) :
    ReadsAt quiet T Q ts (discard afterNext >>= f) := by
  intro hbeyond hts
  have hnext := hf (afterNext ts) hbeyond fun t ht => hts t ((left_afterNext ts).mem ht)
  exact hnext.before (left_afterNext ts) fun _ _ => passed_afterNext_of_passable (hk ▸ hpass)

/-- Consume a token that stands at the front and go on. -/
theorem afterHere {f : Unit → Parser β} {kind : Token.Kind} (hk : (ts.headD .beyond).kind = kind)
    (hpass : passable kind = true) (hf : Reads quiet T Q (f ())) :
    ReadsAt quiet T Q ts (discard afterNext >>= f) := by
  have hpeek : (peek ts).kind = kind := by
    rw [peek_eq_headD, hk]
    intro hn
    rw [← hk, hn] at hpass
    cases hpass
  exact afterToken hpeek hpass hf

end ReadsAt

namespace Reads

theorem rest_suffix {p : Parser α} (h : Reads quiet (fun _ => True) P p) (ts : List Token) :
    (p ts).rest <:+ ts := (h ts trivial fun _ _ => trivial).rest_suffix

theorem length_rest_le {p : Parser α} (h : Reads quiet (fun _ => True) P p) (ts : List Token) :
    (p ts).rest.length ≤ ts.length := (h.rest_suffix ts).length_le

/-- A quiet parser is one that need not be. -/
theorem loud {p : Parser α} (h : Reads quiet T P p) : Reads False T P p :=
  fun ts hbeyond hts => { h ts hbeyond hts with reported_eq_nil := False.elim }

theorem pure {a : α} (h : P a) : Reads quiet T P (Pure.pure a) := fun _ => .pure h

theorem bind {p : Parser α} {f : α → Parser β} (hp : Reads quiet T P p)
    (hf : ∀ a, P a → Reads quiet T Q (f a)) : Reads quiet T Q (p >>= f) := fun ts => (hp ts).bind hf

theorem holds_headD (hbeyond : T .beyond) (h : ∀ t ∈ ts, T t) : T (ts.headD .beyond) := by
  cases ts with
  | nil => exact hbeyond
  | cons t ts => exact h t List.mem_cons_self

theorem holds_peek (hbeyond : T .beyond) (h : ∀ t ∈ ts, T t) : T (peek ts) :=
  holds_headD hbeyond fun t ht => h t ((significant_suffix ts).mem ht)

theorem look {f : Token → Parser β} (h : ∀ ts, T (peek ts) → ReadsAt quiet T Q ts (f (peek ts))) :
    Reads quiet T Q (look >>= f) :=
  fun ts hbeyond hts => h ts (holds_peek hbeyond hts) hbeyond hts

theorem lookHere {f : Token → Parser β}
    (h : ∀ ts, T (ts.headD .beyond) → ReadsAt quiet T Q ts (f (ts.headD .beyond))) :
    Reads quiet T Q (lookHere >>= f) :=
  fun ts hbeyond hts => h ts (holds_headD hbeyond hts) hbeyond hts

end Reads

/-! ## Tokens -/

theorem reads_look : Reads quiet T T look := fun _ hbeyond hts => .ok (Reads.holds_peek hbeyond hts)

theorem reads_lookHere : Reads quiet T T lookHere :=
  fun _ hbeyond hts => .ok (Reads.holds_headD hbeyond hts)

theorem reads_expect {kind : Token.Kind} (hpass : passable kind = true) (expected : String) :
    Reads quiet T (fun t => t.kind = kind ∧ T t) (expect kind expected) :=
  .look fun _ ht => .ite (fun hk => .afterToken (f := fun _ => Pure.pure _) hk hpass (.pure ⟨hk, ht⟩))
    fun _ => .failNext _

theorem reads_expectWord (word expected : String) :
    Reads quiet T (fun _ => True) (expectWord word expected) :=
  .look fun _ _ => .ite
    (fun hw => .afterToken (f := Pure.pure) (kind_of_isWord hw) rfl (.pure trivial))
    fun _ => .failNext _

theorem reads_skipOptional {kind : Token.Kind} (hpass : passable kind = true) :
    Reads quiet T (fun _ => True) (skipOptional kind) :=
  .look fun _ _ => .ite (fun hk => .afterToken (f := Pure.pure) hk hpass (.pure trivial))
    fun _ => .pure trivial

theorem reads_exhausted : Reads quiet T P exhausted := .look fun _ _ => .failNext _

theorem reads_name (expected : String) : Reads quiet T (Ident.From T) (name expected) :=
  .bind (reads_expect rfl _) fun t ⟨hk, ht⟩ => .pure ⟨t, ht, hk, rfl⟩

section Items

variable {item : Parser α} (h : Reads quiet T P item)
include h

theorem reads_moreItems : ∀ n, Reads quiet T (fun as => ∀ a ∈ as, P a) (moreItems item n)
  | 0 => reads_exhausted
  | n + 1 => .look fun _ _ => .ite
      (fun hk => .afterToken hk rfl (.bind h fun _ ha => .bind (reads_moreItems n) fun _ hrest =>
        .pure (List.forall_mem_cons.2 ⟨ha, hrest⟩)))
      fun _ => .pure (List.forall_mem_nil _)

theorem reads_items (n : Nat) : Reads quiet T (fun as => ∀ a ∈ as, P a) (items n item) :=
  .bind h fun _ ha => .bind (reads_moreItems h n) fun _ hrest =>
    .pure (List.forall_mem_cons.2 ⟨ha, hrest⟩)

theorem reads_itemsUntil (n : Nat) {close : Token.Kind} (hpass : passable close = true)
    (expected : String) :
    Reads quiet T (fun as => ∀ a ∈ as, P a) (itemsUntil n item close expected) :=
  .bind (.look fun _ _ => .ite (fun _ => .pure (List.forall_mem_nil _)) fun _ => reads_items h n _)
    fun _ hlist => .bind (reads_expect hpass _) fun _ _ => .pure hlist

end Items

end Rules

/-! ## Expressions -/

section Expressions

variable {quiet : Prop} {T : Token → Prop} {Q : Expr → Prop} (hQ : Expr.Hereditary T Q)
  {expr : Parser Expr} (h : Reads quiet T Q expr) (n : Nat)
include h

theorem reads_property : Reads quiet T (fun q => Q q.2) (property expr) :=
  .bind (reads_expect rfl _) fun _ _ => .bind (reads_expect rfl _) fun _ _ =>
    .bind h fun _ hvalue => .pure hvalue

theorem reads_point (opening closing : String) :
    Reads quiet T (fun q : Expr × Expr => Q q.1 ∧ Q q.2) (point expr opening closing) :=
  .bind (reads_expect rfl _) fun _ _ => .bind h fun _ hx => .bind (reads_expect rfl _) fun _ _ =>
    .bind h fun _ hy => .bind (reads_expect rfl _) fun _ _ => .pure ⟨hx, hy⟩

theorem reads_place (kind : ShapeKind) :
    Reads quiet T (fun q : Expr × Expr => Q q.1 ∧ Q q.2) (place expr kind) :=
  .bind (reads_expectWord _ _) fun _ _ => reads_point h _ _

theorem reads_field (word : String) : Reads quiet T Q (field expr word) :=
  .bind (reads_expectWord _ _) fun _ _ => h

theorem reads_rotation : Reads quiet T (fun o => ∀ e ∈ o.toList, Q e) (rotation expr) :=
  .lookHere fun _ _ => .ite
    (fun hk => .afterHere hk rfl (.bind h fun _ he => .pure (List.forall_mem_singleton.2 he)))
    fun _ => .pure (List.forall_mem_nil _)

theorem reads_optionalField (word : String) :
    Reads quiet T (fun o => ∀ e ∈ o.toList, Q e) (optionalField expr word) :=
  .lookHere fun _ _ => .ite
    (fun hw => .afterHere (kind_of_isWord hw) rfl
      (.bind h fun _ he => .pure (List.forall_mem_singleton.2 he)))
    fun _ => .pure (List.forall_mem_nil _)

include hQ

theorem reads_primary : Reads quiet T Q (primary n expr) := by
  refine .look fun ts ht => ?_
  split
  · next hk =>
    -- a number that is no value is a fault at a token that is passed
    unfold numberLiteral
    split
    · exact .afterToken hk rfl (.pure (hQ.number ht _))
    · exact .failPassed _
  · next hk =>
    exact .afterToken hk rfl (.bind (reads_itemsUntil h n rfl _) fun _ hes =>
      .pure (hQ.array ht hes))
  · next hk =>
    exact .afterToken hk rfl (.bind (reads_itemsUntil (reads_property h) n rfl _) fun _ hps =>
      .pure (hQ.object ht hps))
  · next hk =>
    exact .afterToken hk rfl (.bind h fun _ he => .bind (reads_expect rfl _) fun _ _ => .pure he)
  · split
    · next he => exact .afterToken rfl (passable_of_leaf? he) (.pure (hQ.leaf ht he))
    · exact .failNext _

theorem reads_textContent : Reads quiet T Q (textContent n expr) :=
  .look fun ts _ => .ite (fun _ => reads_primary hQ h n ts) fun _ => .failNext _

theorem reads_shapeParts (kind : ShapeKind) :
    Reads quiet T (fun s : Shape => (∀ e ∈ s.slots, Q e) ∧ ∀ f ∈ s.font, Q (.string f.1 f.2))
      (shapeParts n expr kind) := by
  have at_ := reads_place h
  have point_ := reads_point h
  have field_ := reads_field h
  cases kind with
  | circle =>
    refine .bind (at_ _) fun (x, y) ⟨hx, hy⟩ => .bind (field_ _) fun _ hsize =>
      .bind (field_ _) fun _ hcolor => .pure ?_
    simp only [Shape.slots, Shape.fields, List.forall_mem_cons]
    exact ⟨⟨hx, hy, hsize, hcolor, List.forall_mem_nil _⟩, by rintro _ ⟨⟩⟩
  | rect =>
    refine .bind (at_ _) fun (x, y) ⟨hx, hy⟩ => .bind (field_ _) fun _ hwidth =>
      .bind (field_ _) fun _ hheight => .bind (field_ _) fun _ hcolor => .pure ?_
    simp only [Shape.slots, Shape.fields, List.forall_mem_cons]
    exact ⟨⟨hx, hy, hwidth, hheight, hcolor, List.forall_mem_nil _⟩, by rintro _ ⟨⟩⟩
  | line =>
    refine .bind (point_ _ _) fun (x₁, y₁) ⟨hx₁, hy₁⟩ => .bind (point_ _ _)
      fun (x₂, y₂) ⟨hx₂, hy₂⟩ => .bind (field_ _) fun _ hcolor => .pure ?_
    simp only [Shape.slots, Shape.fields, List.forall_mem_cons]
    exact ⟨⟨hx₁, hy₁, hx₂, hy₂, hcolor, List.forall_mem_nil _⟩, by rintro _ ⟨⟩⟩
  | triangle =>
    refine .bind (point_ _ _) fun (x₁, y₁) ⟨hx₁, hy₁⟩ => .bind (point_ _ _)
      fun (x₂, y₂) ⟨hx₂, hy₂⟩ => .bind (point_ _ _) fun (x₃, y₃) ⟨hx₃, hy₃⟩ =>
      .bind (field_ _) fun _ hcolor => .pure ?_
    simp only [Shape.slots, Shape.fields, List.forall_mem_cons]
    exact ⟨⟨hx₁, hy₁, hx₂, hy₂, hx₃, hy₃, hcolor, List.forall_mem_nil _⟩, by rintro _ ⟨⟩⟩
  | polygon =>
    refine .bind (at_ _) fun (x, y) ⟨hx, hy⟩ => .bind (field_ _) fun _ hsides =>
      .bind (field_ _) fun _ hradius => .bind (field_ _) fun _ hcolor =>
      .bind (reads_rotation h) fun _ hturn => .pure ?_
    simp only [Shape.slots, Shape.fields, List.forall_mem_append, List.forall_mem_cons]
    exact ⟨⟨⟨hx, hy, hsides, hradius, hcolor, List.forall_mem_nil _⟩, hturn⟩, by rintro _ ⟨⟩⟩
  | ellipse =>
    refine .bind (at_ _) fun (x, y) ⟨hx, hy⟩ => .bind h fun _ hradiusX => .bind h fun _ hradiusY =>
      .bind (field_ _) fun _ hcolor => .bind (reads_rotation h) fun _ hturn => .pure ?_
    simp only [Shape.slots, List.forall_mem_append, List.forall_mem_cons]
    exact ⟨⟨⟨hx, hy, hradiusX, hradiusY, hcolor, List.forall_mem_nil _⟩, hturn⟩, by rintro _ ⟨⟩⟩
  | arc =>
    refine .bind (at_ _) fun (x, y) ⟨hx, hy⟩ => .bind (field_ _) fun _ hradius =>
      .bind (field_ _) fun _ hstart => .bind (field_ _) fun _ hend =>
      .bind (field_ _) fun _ hcolor => .pure ?_
    simp only [Shape.slots, Shape.fields, List.forall_mem_cons]
    exact ⟨⟨hx, hy, hradius, hstart, hend, hcolor, List.forall_mem_nil _⟩, by rintro _ ⟨⟩⟩
  | text =>
    refine .bind (at_ _) fun (x, y) ⟨hx, hy⟩ => .bind (reads_textContent hQ h n) fun _ hcontent =>
      .bind (field_ _) fun _ hcolor => .bind (reads_optionalField h _) fun font hfont =>
      .bind (reads_optionalField h _) fun _ hsize => .pure ?_
    simp only [Shape.slots, Shape.fields, List.forall_mem_append, List.forall_mem_cons]
    refine ⟨⟨⟨hx, hy, hcontent, hcolor, List.forall_mem_nil _⟩, hsize⟩, fun f hf => ?_⟩
    have hf : fontOf font = some f := hf
    unfold fontOf at hf
    split at hf <;> cases hf
    exact hfont _ (List.mem_singleton_self _)

theorem reads_shapeOrPrimary : Reads quiet T Q (shapeOrPrimary n expr) := by
  refine .look fun ts ht => ?_
  split
  · next hk =>
    exact .afterToken hk rfl (.bind (reads_shapeParts hQ h n _) fun _ hshape =>
      .pure (hQ.shape ht hshape.1 hshape.2))
  · exact reads_primary hQ h n ts

omit h hQ in
/-- A point is passed if a name comes next after it. -/
theorem readsAt_property {P : α → Prop} {f : Ident → Parser α} {ts : List Token}
    {expected : String} (hk : (ts.headD .beyond).kind = .dot)
    (hf : ∀ id, id.From T → Reads quiet T P (f id)) :
    ReadsAt quiet T P ts (discard afterNext >>= fun _ => name expected >>= f) := by
  intro hbeyond hts
  have hnext := Reads.bind (reads_name expected) hf (afterNext ts) hbeyond
    fun t ht => hts t ((left_afterNext ts).mem ht)
  refine hnext.before (left_afterNext ts) fun a ha => passed_afterNext ?_ fun _ => ?_
  · rw [peek_eq_headD (hk ▸ by decide), hk]
    decide
  · obtain ⟨id, hid⟩ := exists_ok_of_bind ha
    obtain ⟨t, ht⟩ := exists_ok_of_bind hid
    exact kind_of_expect_ok ht

theorem reads_accesses : ∀ k {e : Expr}, Q e → Reads quiet T Q (accesses n expr k e)
  | 0, _, _ => reads_exhausted
  | k + 1, e, he => by
    refine .lookHere fun ts _ => ?_
    split
    · next hk =>
      exact .afterHere hk rfl (.bind (reads_itemsUntil h n rfl _) fun _ hargs =>
        reads_accesses k (hQ.call he hargs))
    · next hk => exact readsAt_property hk fun _ hname => reads_accesses k (hQ.member he hname)
    · next hk =>
      exact .afterHere hk rfl (.bind h fun _ hkey => .bind (reads_expect rfl _) fun _ _ =>
        reads_accesses k (hQ.index he hkey))
    · exact .pure he

theorem reads_access : Reads quiet T Q (access n expr) :=
  .bind (reads_shapeOrPrimary hQ h n) fun _ he => reads_accesses hQ h n n he

theorem reads_negations : ∀ k, Reads quiet T Q (negations expr k)
  | 0 => reads_exhausted
  | k + 1 => .look fun ts ht => .ite
      (fun hk => .afterToken hk rfl (.bind (reads_negations k) fun _ he =>
        .pure (hQ.negate ht he)))
      fun _ => h ts

theorem reads_operations (level : Level) :
    ∀ k {e : Expr}, Q e → Reads quiet T Q (operations level expr k e)
  | 0, _, _ => reads_exhausted
  | k + 1, e, he => by
    refine .lookHere fun ts ht => ?_
    split
    · next hk =>
      exact .ite (fun _ => .afterHere hk rfl (.bind h fun _ hr =>
        reads_operations level k (hQ.binary ht _ he hr))) fun _ => .pure he
    · exact .pure he

theorem reads_joined (level : Level) : Reads quiet T Q (joined n level expr) :=
  .bind h fun _ he => reads_operations hQ h level n he

theorem reads_comparison : Reads quiet T Q (comparison n expr) :=
  reads_joined hQ (reads_joined hQ (reads_joined hQ
    (reads_negations hQ (reads_access hQ h n) n) n _) n _) n _

/-- The value of an assignment after its target, if there is one. -/
theorem reads_assignmentTo {target : Expr} (ht : Q target) :
    Reads quiet T Q (lookHere >>= fun t =>
      if t.kind = .assign then discard afterNext >>= fun _ =>
        if target.isTarget then expr >>= fun value => pure (.assign target value)
        else failAt t .invalidTarget
      else pure target) := by
  refine .lookHere fun ts _ => .ite (fun hk => ?_) fun _ => .pure ht
  split_ifs with htarget
  · exact .afterHere hk rfl (.bind h fun _ hv => .pure (hQ.assign htarget ht hv))
  · -- the sign is passed before its target is found to be none
    rw [← peek_eq_headD (hk ▸ by decide)]
    exact .failPassed _

theorem reads_assignment : Reads quiet T Q (assignment n expr) :=
  .bind (reads_comparison hQ h n) fun _ ht => reads_assignmentTo hQ h ht

end Expressions

/-- Every expression that is read from tokens of a class has a hereditary property. -/
theorem reads_expressionWithin {quiet : Prop} {T : Token → Prop} {Q : Expr → Prop}
    (hQ : Expr.Hereditary T Q) : ∀ n, Reads quiet T Q (expressionWithin n)
  | 0 => reads_exhausted
  | n + 1 => reads_assignment hQ (reads_expressionWithin hQ n) n

/-! ## Parsers that consume -/

/-- The parser reads a value with the property, whatever tokens it is given. -/
abbrev ReadsAny (P : α → Prop) (p : Parser α) : Prop := Reads False (fun _ => True) P p

/-- The parser reads some expression, whatever tokens it is given. -/
abbrev ReadsExpr (expr : Parser Expr) : Prop := ReadsAny (fun _ => True) expr

theorem readsExpr_expressionWithin (n : Nat) : ReadsExpr (expressionWithin n) :=
  reads_expressionWithin Expr.hereditary_true n

section Consumes

variable {P : α → Prop}

theorem consumesAt_afterToken {f : Unit → Parser α} (hf : ReadsAny P (f ()))
    {ts : List Token} (h : (peek ts).kind ≠ .eof) : ConsumesAt ts (discard afterNext >>= f) := by
  intro a _
  rw [discard_bind]
  exact (hf.length_rest_le _).trans_lt (length_afterNext_lt h)

theorem consumesAt_failAt (ts : List Token) (t : Token) (problem : Problem) :
    ConsumesAt ts (failAt t problem : Parser α) := by
  intro a h
  cases h

/-- A parser that looks at the next token consumes if what it does with the token does. -/
theorem consumes_look {f : Token → Parser α} (h : ∀ ts, ConsumesAt ts (f (peek ts))) :
    Consumes (look >>= f) := h

theorem consumes_exhausted : Consumes (exhausted : Parser α) :=
  consumes_look fun ts => consumesAt_failAt ts _ _

theorem Consumes.bind {Q : β → Prop} {p : Parser α} {f : α → Parser β} (hp : Consumes p)
    (hf : ∀ a, ReadsAny Q (f a)) : Consumes (p >>= f) := by
  intro ts b hb
  cases h : (p ts).result with
  | error fault =>
    rw [bind_of_error h] at hb
    cases hb
  | ok a =>
    rw [bind_of_ok h]
    exact ((hf a).length_rest_le _).trans_lt (hp ts a h)

end Consumes

section

open Expr (hereditary_true)

variable {expr : Parser Expr} (he : ReadsExpr expr) (n : Nat)
include he

theorem consumes_primary : Consumes (primary n expr) := by
  refine consumes_look fun ts => ?_
  generalize ht : peek ts = t
  have consumed {f : Unit → Parser Expr} (hf : ReadsExpr (f ())) (hk : t.kind ≠ .eof) :
      ConsumesAt ts (discard afterNext >>= f) := consumesAt_afterToken hf (ht ▸ hk)
  split
  case h_1 hk =>
    unfold numberLiteral
    split
    · exact consumed (.pure trivial) (by simp [hk])
    · intro a h
      cases h
  case h_2 hk =>
    exact consumed (.bind (reads_itemsUntil he n rfl _) fun _ _ => .pure trivial) (by simp [hk])
  case h_3 hk =>
    exact consumed (.bind (reads_itemsUntil (reads_property he) n rfl _) fun _ _ => .pure trivial)
      (by simp [hk])
  case h_4 hk =>
    exact consumed (.bind he fun _ _ => .bind (reads_expect rfl _) fun _ _ => .pure trivial)
      (by simp [hk])
  case h_5 =>
    split
    · next hl =>
      refine consumed (.pure trivial) fun hk => ?_
      simp [leaf?, hk] at hl
    · exact consumesAt_failAt _ _ _

theorem consumes_shapeOrPrimary : Consumes (shapeOrPrimary n expr) := by
  refine consumes_look fun ts => ?_
  split
  · next hk =>
    exact consumesAt_afterToken (P := fun _ => True)
      (.bind (reads_shapeParts hereditary_true he n _) fun _ _ => .pure trivial) (by simp [hk])
  · exact consumes_primary he n ts

theorem consumes_access : Consumes (access n expr) :=
  (consumes_shapeOrPrimary he n).bind fun _ => reads_accesses hereditary_true he n n trivial

omit he in
theorem consumes_negations {operand : Parser Expr} (hs : ReadsExpr operand)
    (h : Consumes operand) : ∀ k, Consumes (negations operand k)
  | 0 => consumes_exhausted
  | k + 1 => by
    refine consumes_look fun ts => ?_
    split_ifs with hk
    · exact consumesAt_afterToken (P := fun _ => True)
        (.bind (reads_negations hereditary_true hs k) fun _ _ => .pure trivial) (by simp [hk])
    · exact h ts

omit he in
theorem consumes_joined {operand : Parser Expr} (hs : ReadsExpr operand) (h : Consumes operand)
    (level : Level) : Consumes (joined n level operand) :=
  h.bind fun _ => reads_operations hereditary_true hs level n trivial

theorem consumes_comparison : Consumes (comparison n expr) := by
  have hs := reads_negations hereditary_true (reads_access hereditary_true he n) n
  have hc := consumes_negations (reads_access hereditary_true he n) (consumes_access he n) n
  exact consumes_joined n (reads_joined hereditary_true (reads_joined hereditary_true hs n _) n _)
    (consumes_joined n (reads_joined hereditary_true hs n _) (consumes_joined n hs hc _) _) _

theorem consumes_assignment : Consumes (assignment n expr) :=
  (consumes_comparison he n).bind fun _ => reads_assignmentTo hereditary_true he trivial

end

theorem consumes_expressionWithin : ∀ n, Consumes (expressionWithin n)
  | 0 => consumes_exhausted
  | n + 1 => consumes_assignment (readsExpr_expressionWithin n) n

end Parser

end Easel
