import Easel.Proofs.Scope.Events
import Mathlib.Tactic.Common

/-!
# Scopes as intervals

The scopes of a program are intervals of its events: the whole sequence, and what stands between an
`enter` and the `exit` that belongs to it.  A name is visible to an event if a scope that holds the
event has an earlier declaration of the name, and taken at an event if the event's own scope has one.

Where scopes are nested, as they are in a program (`Stmt.enclosed_eventsAll`), both can be told from
levels alone: the scope of an event stays open as long as no event stands less deep
(`visibleAt_iff`, `takenAt_iff`).
-/

namespace Easel

/-- The number of scopes opened before an event and not closed. -/
def levelAt (es : List ScopeEvent) (k : Nat) : Int :=
  (es.take k).count .enter - (es.take k).count .exit

/-- The events from `first` on and before `stop` are what a scope holds: the whole sequence, or what
stands between the opening of a scope and the closing that belongs to it. -/
def IsScope (es : List ScopeEvent) (first stop : Nat) : Prop :=
  (first = 0 ∧ stop = es.length) ∨
    (0 < first ∧ es[first - 1]? = some .enter ∧ es[stop]? = some .exit ∧ first ≤ stop ∧
      levelAt es stop = levelAt es first ∧
      ∀ m, m ≤ stop → first ≤ m → levelAt es first ≤ levelAt es m)

/-- The event stands in the scope and in no scope inside it. -/
def StandsIn (es : List ScopeEvent) (first stop k : Nat) : Prop :=
  first ≤ k ∧ k < stop ∧ levelAt es k = levelAt es first

/-- The name an event declares. -/
def ScopeEvent.declared? : ScopeEvent → Option String
  | .declare id _ => some id.name
  | _ => none

/-- The event declares the name. -/
def DeclaresAt (es : List ScopeEvent) (j : Nat) (n : String) : Prop :=
  (es[j]?).bind ScopeEvent.declared? = some n

/-- A scope that holds the event has an earlier declaration of the name. -/
def VisibleAt (es : List ScopeEvent) (k : Nat) (n : String) : Prop :=
  ∃ j, j < k ∧ ∃ first, first ≤ j ∧ ∃ stop, stop ≤ es.length ∧
    IsScope es first stop ∧ StandsIn es first stop j ∧ k < stop ∧ DeclaresAt es j n

/-- The scope of the event has an earlier declaration of the name. -/
def TakenAt (es : List ScopeEvent) (k : Nat) (n : String) : Prop :=
  ∃ j, j < k ∧ ∃ first, first ≤ j ∧ ∃ stop, stop ≤ es.length ∧
    IsScope es first stop ∧ StandsIn es first stop j ∧ StandsIn es first stop k ∧ DeclaresAt es j n

instance (es : List ScopeEvent) (first stop : Nat) : Decidable (IsScope es first stop) :=
  inferInstanceAs (Decidable (_ ∨ _))

instance (es : List ScopeEvent) (first stop k : Nat) : Decidable (StandsIn es first stop k) :=
  inferInstanceAs (Decidable (_ ∧ _))

instance (es : List ScopeEvent) (j : Nat) (n : String) : Decidable (DeclaresAt es j n) :=
  inferInstanceAs (Decidable (_ = _))

instance (es : List ScopeEvent) (k : Nat) (n : String) : Decidable (VisibleAt es k n) :=
  inferInstanceAs (Decidable (∃ j, j < k ∧ ∃ first, first ≤ j ∧ ∃ stop, stop ≤ es.length ∧ _))

instance (es : List ScopeEvent) (k : Nat) (n : String) : Decidable (TakenAt es k n) :=
  inferInstanceAs (Decidable (∃ j, j < k ∧ ∃ first, first ≤ j ∧ ∃ stop, stop ≤ es.length ∧ _))

/-! ## Levels -/

section Levels

variable {es : List ScopeEvent} {e : ScopeEvent} {k : Nat}

/-- How much deeper the events behind an event stand. -/
def ScopeEvent.rise : ScopeEvent → Int
  | .enter => 1
  | .exit => -1
  | .declare _ _ | .read _ => 0

theorem levelAt_zero (es : List ScopeEvent) : levelAt es 0 = 0 := by simp [levelAt]

theorem levelAt_succ (h : es[k]? = some e) : levelAt es (k + 1) = levelAt es k + e.rise := by
  rw [levelAt, levelAt, List.take_add_one, h]
  cases e <;> simp [ScopeEvent.rise, List.count_append] <;> omega

theorem levelAt_append_left {es' : List ScopeEvent} (h : k ≤ es.length) :
    levelAt (es ++ es') k = levelAt es k := by
  rw [levelAt, levelAt, List.take_append_of_le_length h]

theorem levelAt_append_right (es es' : List ScopeEvent) (k : Nat) :
    levelAt (es ++ es') (es.length + k) = levelAt es es.length + levelAt es' k := by
  simp only [levelAt, List.take_length_add_append, List.take_length, List.count_append]
  omega

theorem levelAt_of_length_le (h : es.length ≤ k) : levelAt es k = levelAt es es.length := by
  rw [levelAt, levelAt, List.take_of_length_le h, List.take_length]

/-- No scope is closed before it is opened, and in the end all are closed. -/
structure Nested (es : List ScopeEvent) : Prop where
  nonneg : ∀ k, 0 ≤ levelAt es k
  closed : levelAt es es.length = 0

theorem nested_nil : Nested [] := ⟨fun k => by simp [levelAt], by simp [levelAt]⟩

theorem Nested.append {es' : List ScopeEvent} (h : Nested es) (h' : Nested es') :
    Nested (es ++ es') := by
  constructor
  · intro k
    by_cases hk : k ≤ es.length
    · rw [levelAt_append_left hk]
      exact h.nonneg k
    · obtain ⟨m, rfl⟩ : ∃ m, k = es.length + m := ⟨k - es.length, by omega⟩
      rw [levelAt_append_right, h.closed]
      have := h'.nonneg m
      omega
  · rw [List.length_append, levelAt_append_right, h.closed, h'.closed, Int.add_zero]

theorem nested_of_rise (h : e.rise = 0) : Nested [e] := by
  have hlevel : ∀ k, levelAt [e] k = 0 := by
    intro k
    cases k with
    | zero => exact levelAt_zero _
    | succ k =>
      rw [levelAt_of_length_le (by simp)]
      have hfirst : levelAt [e] 1 = levelAt [e] 0 + e.rise := levelAt_succ rfl
      rw [List.length_singleton, hfirst, levelAt_zero, h]
      rfl
  exact ⟨fun k => Int.le_of_eq (hlevel k).symm, hlevel _⟩

theorem Nested.inScope (h : Nested es) : Nested (.enter :: (es ++ [.exit])) := by
  have hfirst (k : Nat) : levelAt (.enter :: (es ++ [.exit])) (k + 1) =
      1 + levelAt (es ++ [.exit]) k := by
    simp only [levelAt, List.take_succ_cons, List.count_cons]
    simp
    omega
  have hlast : levelAt (es ++ [.exit]) (es.length + 1) = -1 := by
    rw [levelAt_append_right, h.closed]
    simp [levelAt]
  constructor
  · intro k
    cases k with
    | zero => exact Int.le_of_eq (levelAt_zero _).symm
    | succ k =>
      rw [hfirst]
      by_cases hk : k ≤ es.length
      · rw [levelAt_append_left hk]
        have := h.nonneg k
        omega
      · rw [levelAt_of_length_le (by simp; omega), List.length_append, List.length_singleton, hlast]
        omega
  · rw [List.length_cons, hfirst, List.length_append, List.length_singleton, hlast]
    omega

end Levels

/-! ## The events of a program -/

/-- Every scope that is opened is closed, and no other. -/
inductive Enclosed : List ScopeEvent → Prop
  | nil : Enclosed []
  | cons {e : ScopeEvent} {es : List ScopeEvent} (he : e.rise = 0) (h : Enclosed es) :
      Enclosed (e :: es)
  | scope {inside es : List ScopeEvent} (hinside : Enclosed inside) (h : Enclosed es) :
      Enclosed (.enter :: (inside ++ .exit :: es))

namespace Enclosed

variable {es es' : List ScopeEvent}

theorem append (h : Enclosed es) (h' : Enclosed es') : Enclosed (es ++ es') := by
  induction h with
  | nil => exact h'
  | cons he _ ih => exact .cons he ih
  | scope hinside _ _ ih =>
    rw [List.cons_append, List.append_assoc, List.cons_append]
    exact .scope hinside ih

theorem nested (h : Enclosed es) : Nested es := by
  induction h with
  | nil => exact nested_nil
  | cons he _ ih => exact (nested_of_rise he).append ih
  | @scope inside es _ _ ihinside ih =>
    have hsplit : .enter :: (inside ++ .exit :: es) = .enter :: (inside ++ [.exit]) ++ es := by simp
    rw [hsplit]
    exact ihinside.inScope.append ih

theorem inScope (h : Enclosed es) : Enclosed (.enter :: (es ++ [.exit])) := .scope h .nil

theorem map {α : Type} (f : α → ScopeEvent) (h : ∀ a, (f a).rise = 0) (as : List α) :
    Enclosed (as.map f) := by
  induction as with
  | nil => exact .nil
  | cons a as ih => exact .cons (h a) ih

theorem flatMap {α : Type} (f : α → List ScopeEvent) (as : List α)
    (h : ∀ a ∈ as, Enclosed (f a)) : Enclosed (as.flatMap f) := by
  induction as with
  | nil => exact .nil
  | cons a as ih =>
    rw [List.flatMap_cons]
    exact (h a List.mem_cons_self).append (ih fun b hb => h b (List.mem_cons_of_mem a hb))

theorem readEvents (ids : List Ident) : Enclosed (readEvents ids) := map _ (fun _ => rfl) ids

end Enclosed

theorem Binding.enclosed_events (b : Binding) : Enclosed b.events :=
  (Enclosed.readEvents _).append (.cons rfl .nil)

theorem Init.enclosed_events (init : Option Init) :
    Enclosed ((init.map Init.events).getD []) := by
  rcases init with _ | b | e
  · exact .nil
  · exact b.enclosed_events
  · exact .readEvents _

mutual

theorem Stmt.enclosed_events : ∀ s : Stmt, Enclosed s.events
  | .binding b => b.enclosed_events
  | .function _ _ params body =>
    .cons rfl
      ((Enclosed.map _ (fun _ => rfl) params).append (Stmt.enclosed_eventsAll body)).inScope
  | .ret _ _ | .expr _ => .readEvents _
  | .ifThen _ _ body | .repeatLoop _ _ body | .whileLoop _ _ body =>
    (Enclosed.readEvents _).append (Stmt.enclosed_eventsAll body)
  | .ifElse _ _ body alternative =>
    ((Enclosed.readEvents _).append (Stmt.enclosed_eventsAll body)).append
      (Stmt.enclosed_eventsAll alternative)
  | .forLoop _ init _ _ body =>
    (((Init.enclosed_events init).append (.readEvents _)).append (.readEvents _)).append
      (Stmt.enclosed_eventsAll body)
  | .importFrom _ names _ => .map _ (fun _ => rfl) names
  | .scene _ _ body => (Stmt.enclosed_eventsAll body).inScope
  | .animate _ commands => .flatMap _ commands fun _ _ => .readEvents _

theorem Stmt.enclosed_eventsAll : ∀ ss : List Stmt, Enclosed (Stmt.eventsAll ss)
  | [] => .nil
  | s :: ss => s.enclosed_events.append (Stmt.enclosed_eventsAll ss)

end

/-! ## Scopes by levels -/

section Open

variable {es : List ScopeEvent} {e : ScopeEvent} {j k : Nat} {n : String}

/-- No scope around event `j` is closed before event `k`. -/
def StaysOpen (es : List ScopeEvent) (j k : Nat) : Prop :=
  ∀ m, j ≤ m → m ≤ k → levelAt es j ≤ levelAt es m

theorem IsScope.level_le {first stop m : Nat} (hes : Nested es) (h : IsScope es first stop)
    (hfirst : first ≤ m) (hstop : m ≤ stop) : levelAt es first ≤ levelAt es m := by
  rcases h with ⟨rfl, -⟩ | ⟨-, -, -, -, -, hinside⟩
  · rw [levelAt_zero]
    exact hes.nonneg m
  · exact hinside m hstop hfirst

/-- The last event that stands less deep than `j` before it opens the scope of `j`. -/
theorem exists_opening {i : Nat} (hlevel : 0 < levelAt es j) (hj : j ≤ es.length) (hij : i ≤ j)
    (hall : ∀ m, i ≤ m → m ≤ j → levelAt es j ≤ levelAt es m) :
    ∃ a, a < j ∧ es[a]? = some .enter ∧ levelAt es (a + 1) = levelAt es j ∧
      ∀ m, a < m → m ≤ j → levelAt es j ≤ levelAt es m := by
  induction i with
  | zero =>
    have := hall 0 (by omega) (by omega)
    rw [levelAt_zero] at this
    omega
  | succ a ih =>
    obtain ⟨e, he⟩ : ∃ e, es[a]? = some e := ⟨es[a], List.getElem?_eq_getElem (by omega)⟩
    have hstep := levelAt_succ he
    have hnext := hall (a + 1) (by omega) (by omega)
    by_cases hless : levelAt es j ≤ levelAt es a
    · refine ih (by omega) fun m hm hmj => ?_
      by_cases hma : m = a
      · rw [hma]
        exact hless
      · exact hall m (by omega) hmj
    · have he' : e = .enter := by
        cases e <;> simp only [ScopeEvent.rise] at hstep <;> first | rfl | omega
      subst he'
      simp only [ScopeEvent.rise] at hstep
      exact ⟨a, by omega, he, by omega, fun m hm hmj => hall m (by omega) hmj⟩

/-- The first event from `k` on behind which it is less deep closes the scope of `j`. -/
theorem exists_closing (hes : Nested es) (hlevel : 0 < levelAt es j) (hk : k ≤ es.length)
    (hopen : levelAt es j ≤ levelAt es k) :
    ∃ b, k ≤ b ∧ es[b]? = some .exit ∧ levelAt es b = levelAt es j ∧
      ∀ m, k ≤ m → m ≤ b → levelAt es j ≤ levelAt es m := by
  induction hd : es.length - k generalizing k with
  | zero =>
    have hend : k = es.length := by omega
    rw [hend, hes.closed] at hopen
    omega
  | succ d ih =>
    obtain ⟨e, he⟩ : ∃ e, es[k]? = some e := ⟨es[k], List.getElem?_eq_getElem (by omega)⟩
    have hstep := levelAt_succ he
    by_cases hnext : levelAt es j ≤ levelAt es (k + 1)
    · obtain ⟨b, hkb, hb, hlevelb, hall⟩ := ih (by omega) hnext (by omega)
      refine ⟨b, by omega, hb, hlevelb, fun m hm hmb => ?_⟩
      by_cases hmk : m = k
      · rw [hmk]
        exact hopen
      · exact hall m (by omega) hmb
    · have he' : e = .exit := by
        cases e <;> simp only [ScopeEvent.rise] at hstep <;> first | rfl | omega
      subst he'
      simp only [ScopeEvent.rise] at hstep
      refine ⟨k, by omega, he, by omega, fun m hm hmk => ?_⟩
      rw [show m = k by omega]
      exact hopen

/-- Where the scopes around an event are still open, one of them is the event's own. -/
theorem exists_isScope (hes : Nested es) (hjk : j < k) (hk : k < es.length)
    (hexit : es[k]? ≠ some .exit) (hopen : StaysOpen es j k) :
    ∃ first, first ≤ j ∧ ∃ stop, stop ≤ es.length ∧ IsScope es first stop ∧
      StandsIn es first stop j ∧ k < stop := by
  have hk' := hopen k (by omega) (by omega)
  by_cases hlevel : levelAt es j = 0
  · refine ⟨0, by omega, es.length, by omega, .inl ⟨rfl, rfl⟩, ⟨by omega, by omega, ?_⟩, hk⟩
    rw [hlevel, levelAt_zero]
  · have hpos : 0 < levelAt es j := by
      have := hes.nonneg j
      omega
    obtain ⟨a, haj, ha, hfirst, hbefore⟩ := exists_opening hpos (by omega)
      (Nat.le_refl j) fun m hm hmj => Int.le_of_eq (congrArg (levelAt es) (by omega))
    obtain ⟨b, hkb, hb, hlevelb, hbehind⟩ := exists_closing hes hpos (by omega) hk'
    have hne : k ≠ b := by
      rintro rfl
      exact hexit hb
    have hlength : b < es.length := (List.getElem?_eq_some_iff.1 hb).1
    refine ⟨a + 1, by omega, b, by omega, .inr ⟨by omega, ha, hb, by omega, by omega, ?_⟩,
      ⟨by omega, by omega, hfirst.symm⟩, by omega⟩
    intro m hmb ham
    rw [hfirst]
    rcases Nat.le_total m j with hmj | hjm
    · exact hbefore m (by omega) hmj
    · rcases Nat.le_total m k with hmk | hkm
      · exact hopen m hjm hmk
      · exact hbehind m hkm hmb

/-- The scope of an event stays open until it is closed. -/
theorem IsScope.staysOpen (hes : Nested es) {first stop : Nat} (hscope : IsScope es first stop)
    (hin : StandsIn es first stop j) (hk : k < stop) : StaysOpen es j k := by
  obtain ⟨hfirst, -, hlevel⟩ := hin
  intro m hjm hmk
  rw [hlevel]
  exact hscope.level_le hes (by omega) (by omega)

theorem visibleAt_iff (hes : Nested es) (hk : k < es.length) (hexit : es[k]? ≠ some .exit) :
    VisibleAt es k n ↔ ∃ j, j < k ∧ DeclaresAt es j n ∧ StaysOpen es j k := by
  constructor
  · rintro ⟨j, hjk, first, -, stop, -, hscope, hin, hstop, hdeclares⟩
    exact ⟨j, hjk, hdeclares, hscope.staysOpen hes hin hstop⟩
  · rintro ⟨j, hjk, hdeclares, hopen⟩
    obtain ⟨first, hfirst, stop, hstop, hscope, hin, hkstop⟩ :=
      exists_isScope hes hjk hk hexit hopen
    exact ⟨j, hjk, first, hfirst, stop, hstop, hscope, hin, hkstop, hdeclares⟩

theorem takenAt_iff (hes : Nested es) (hk : k < es.length) (hexit : es[k]? ≠ some .exit) :
    TakenAt es k n ↔
      ∃ j, j < k ∧ DeclaresAt es j n ∧ StaysOpen es j k ∧ levelAt es j = levelAt es k := by
  constructor
  · rintro ⟨j, hjk, first, -, stop, -, hscope, hin, ⟨-, hstop, hlevel⟩, hdeclares⟩
    exact ⟨j, hjk, hdeclares, hscope.staysOpen hes hin hstop, hin.2.2.trans hlevel.symm⟩
  · rintro ⟨j, hjk, hdeclares, hopen, hlevel⟩
    obtain ⟨first, hfirst, stop, hstop, hscope, hin, hkstop⟩ :=
      exists_isScope hes hjk hk hexit hopen
    exact ⟨j, hjk, first, hfirst, stop, hstop, hscope, hin,
      ⟨by omega, hkstop, hlevel.symm.trans hin.2.2⟩, hdeclares⟩

end Open

end Easel
