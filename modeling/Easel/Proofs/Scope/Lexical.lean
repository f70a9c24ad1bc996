import Easel.Proofs.Scope.Intervals
import Easel.Proofs.Scope.Relocate

/-!
# Lexical scoping

A symbol table that has carried out the first events of a program holds the names declared in the
scopes that are still open, each as many scopes out as its declaration (`Tracks`).  The visits of the
analysis carry out all events of the program (`analyze_eq_run`).  So they report exactly the reads of
names that no scope around them declares earlier and the declarations of names that their own scope
already has: `analyze_lexical`.
-/

namespace Easel

/-! ## What is to be reported -/

/-- What is to be said about the event at a place. -/
def diagnosticsAt (es : List ScopeEvent) (k : Nat) : List Diagnostic :=
  match es[k]? with
  | some (.read id) =>
    if isBuiltin id.name ∨ VisibleAt es k id.name then []
    else [⟨.semantic, id.position.line, id.position.column,
      "Undefined variable '" ++ id.name ++ "'", ""⟩]
  | some (.declare id _) =>
    if TakenAt es k id.name then [⟨.semantic, id.position.line, id.position.column,
      "Variable '" ++ id.name ++ "' is already declared in this scope", ""⟩]
    else []
  | _ => []

theorem toDiagnostic_undefined (id : Ident) : NameFault.toDiagnostic ⟨id, .undefined⟩ =
    ⟨.semantic, id.position.line, id.position.column, "Undefined variable '" ++ id.name ++ "'",
      ""⟩ := rfl

theorem toDiagnostic_redeclared (id : Ident) : NameFault.toDiagnostic ⟨id, .redeclared⟩ =
    ⟨.semantic, id.position.line, id.position.column,
      "Variable '" ++ id.name ++ "' is already declared in this scope", ""⟩ := rfl

/-- The symbol is that of a declaration in the global scope, the first one of its name. -/
def FirstGlobal (es : List ScopeEvent) (s : Symbol) : Prop :=
  ∃ k id kind, es[k]? = some (.declare id kind) ∧ s = SymbolTable.symbolOf id kind ∧
    StandsIn es 0 es.length k ∧ ¬ TakenAt es k id.name

section Tracks

variable {es : List ScopeEvent} {e : ScopeEvent} {j k : Nat} {n : String}

/-! ## What a table holds -/

/-- The name is declared before event `k` in a scope that is still open, `i` scopes out. -/
def Live (es : List ScopeEvent) (k i : Nat) (n : String) : Prop :=
  ∃ j, j < k ∧ DeclaresAt es j n ∧ StaysOpen es j k ∧ levelAt es j + i = levelAt es k

/-- The scopes of a table, the innermost first. -/
def SymbolTable.scopes (t : SymbolTable) : List Scope := t.nested ++ [t.globals]

/-- The table holds the names declared before event `k` in the scopes that are still open. -/
structure Tracks (es : List ScopeEvent) (k : Nat) (t : SymbolTable) : Prop where
  depth : t.nested.length = levelAt es k
  names : ∀ i scope, t.scopes[i]? = some scope → ∀ n, n ∈ scope.map Symbol.name ↔ Live es k i n

theorem StaysOpen.succ (h : StaysOpen es j k) (hlevel : levelAt es j ≤ levelAt es (k + 1)) :
    StaysOpen es j (k + 1) := by
  intro m hjm hmk
  by_cases hm : m = k + 1
  · rw [hm]
    exact hlevel
  · exact h m hjm (by omega)

theorem StaysOpen.of_succ (h : StaysOpen es j (k + 1)) : StaysOpen es j k :=
  fun m hjm hmk => h m hjm (by omega)

theorem declaresAt_iff (he : es[k]? = some e) : DeclaresAt es k n ↔ e.declared? = some n := by
  rw [DeclaresAt, he]
  rfl

/-- One more event: what was declared before it stays so if its scope does, and the event itself may
declare a name. -/
theorem live_succ (he : es[k]? = some e) (i : Nat) :
    Live es (k + 1) i n ↔
      (∃ i' : Nat, Live es k i' n ∧ (i : Int) = i' + e.rise) ∨
        (e.declared? = some n ∧ i = 0) := by
  have hstep := levelAt_succ he
  constructor
  · rintro ⟨j, hj, hdeclares, hopen, hlevel⟩
    by_cases hjk : j = k
    · subst hjk
      have hdeclared := (declaresAt_iff he).1 hdeclares
      refine .inr ⟨hdeclared, ?_⟩
      cases e <;> simp only [ScopeEvent.declared?, reduceCtorEq] at hdeclared
      simp only [ScopeEvent.rise] at hstep
      omega
    · have := hopen k (by omega) (by omega)
      exact .inl ⟨(levelAt es k - levelAt es j).toNat,
        ⟨j, by omega, hdeclares, hopen.of_succ, by omega⟩, by omega⟩
  · rintro (⟨i', ⟨j, hj, hdeclares, hopen, hlevel⟩, hi⟩ | ⟨hdeclared, rfl⟩)
    · exact ⟨j, by omega, hdeclares, hopen.succ (by omega), by omega⟩
    · refine ⟨k, by omega, (declaresAt_iff he).2 hdeclared, ?_, ?_⟩
      · intro m hkm hmk
        cases e <;> simp only [ScopeEvent.declared?, reduceCtorEq] at hdeclared
        simp only [ScopeEvent.rise] at hstep
        rcases (by omega : m = k ∨ m = k + 1) with rfl | rfl <;> omega
      · cases e <;> simp only [ScopeEvent.declared?, reduceCtorEq] at hdeclared
        simp only [ScopeEvent.rise] at hstep
        omega

theorem not_live_enter (he : es[k]? = some .enter) : ¬ Live es (k + 1) 0 n := by
  rw [live_succ he]
  rintro (⟨i', -, hi⟩ | ⟨hdeclared, -⟩)
  · simp only [ScopeEvent.rise] at hi
    omega
  · cases hdeclared

theorem live_enter (he : es[k]? = some .enter) (i : Nat) :
    Live es (k + 1) (i + 1) n ↔ Live es k i n := by
  rw [live_succ he]
  constructor
  · rintro (⟨i', hlive, hi⟩ | ⟨hdeclared, -⟩)
    · simp only [ScopeEvent.rise] at hi
      rwa [show i = i' by omega]
    · cases hdeclared
  · intro hlive
    exact .inl ⟨i, hlive, rfl⟩

theorem live_exit (he : es[k]? = some .exit) (i : Nat) :
    Live es (k + 1) i n ↔ Live es k (i + 1) n := by
  rw [live_succ he]
  constructor
  · rintro (⟨i', hlive, hi⟩ | ⟨hdeclared, -⟩)
    · simp only [ScopeEvent.rise] at hi
      rwa [show i + 1 = i' by omega]
    · cases hdeclared
  · intro hlive
    exact .inl ⟨i + 1, hlive, by simp only [ScopeEvent.rise]; omega⟩

theorem live_of_rise (he : es[k]? = some e) (hrise : e.rise = 0) (i : Nat) :
    Live es (k + 1) i n ↔ Live es k i n ∨ (e.declared? = some n ∧ i = 0) := by
  rw [live_succ he, hrise]
  refine or_congr_left ⟨?_, fun hlive => ⟨i, hlive, by omega⟩⟩
  rintro ⟨i', hlive, hi⟩
  rwa [show i = i' by omega]

/-! ## One event -/

variable {t : SymbolTable}

namespace SymbolTable

theorem scopes_eq_cons (t : SymbolTable) : t.scopes = t.innermost :: t.scopes.tail := by
  unfold scopes innermost
  cases t.nested <;> rfl

theorem scopes_add (t : SymbolTable) (s : Symbol) :
    (t.add s).scopes = (s :: t.innermost) :: t.scopes.tail := by
  unfold scopes add innermost
  cases t.nested <;> rfl

theorem length_nested_add (t : SymbolTable) (s : Symbol) :
    (t.add s).nested.length = t.nested.length := by
  unfold add
  split <;> simp_all

end SymbolTable

theorem Tracks.mem_innermost (h : Tracks es k t) :
    n ∈ t.innermost.map Symbol.name ↔ Live es k 0 n :=
  h.names 0 _ (by rw [t.scopes_eq_cons]; rfl) n

/-- A name that the innermost scope has is not declared again. -/
theorem Tracks.declare_of_live (h : Tracks es k t) {s : Symbol} (hlive : Live es k 0 s.name) :
    (t.declare s).1 = t ∧ (t.declare s).2.2 = false := by
  have hfind := SymbolTable.isSome_find? t.innermost s.name
  rw [List.contains_iff_mem.2 (h.mem_innermost.2 hlive)] at hfind
  obtain ⟨taken, htaken⟩ := Option.isSome_iff_exists.1 hfind
  rw [SymbolTable.declare, htaken]
  exact ⟨rfl, rfl⟩

theorem Tracks.declare_of_not_live (h : Tracks es k t) {s : Symbol}
    (hlive : ¬ Live es k 0 s.name) :
    (t.declare s).1 = t.add s ∧ (t.declare s).2.2 = true := by
  have hfind : t.innermost.find? s.name = none := by
    rw [← Option.not_isSome_iff_eq_none, SymbolTable.isSome_find?, List.contains_iff_mem,
      h.mem_innermost]
    exact hlive
  rw [SymbolTable.declare, hfind]
  exact ⟨rfl, rfl⟩

theorem Tracks.isSome_lookup_iff (h : Tracks es k t) (hes : Nested es) :
    (t.lookup n).isSome = true ↔ isBuiltin n = true ∨ ∃ i, Live es k i n := by
  have hmem : (∃ scope ∈ t.scopes, n ∈ scope.map Symbol.name) ↔ ∃ i, Live es k i n := by
    constructor
    · rintro ⟨scope, hscope, hn⟩
      obtain ⟨i, hi⟩ := List.getElem?_of_mem hscope
      exact ⟨i, (h.names i scope hi n).1 hn⟩
    · rintro ⟨i, hlive⟩
      have hbound : i < t.scopes.length := by
        obtain ⟨j, -, -, -, hlevel⟩ := hlive
        have := h.depth
        have := hes.nonneg j
        simp only [SymbolTable.scopes, List.length_append, List.length_singleton]
        omega
      have hi := List.getElem?_eq_getElem hbound
      exact ⟨_, List.getElem_mem hbound, (h.names i _ hi n).2 hlive⟩
  rw [SymbolTable.isSome_lookup, Bool.or_eq_true, ← hmem, or_comm]
  simp [SymbolTable.scopes, or_and_right, exists_or]

theorem takenAt_iff_live (hes : Nested es) (he : es[k]? = some e) (hexit : e ≠ .exit) :
    TakenAt es k n ↔ Live es k 0 n := by
  rw [takenAt_iff hes (List.getElem?_eq_some_iff.1 he).1 (by rw [he]; simpa using hexit)]
  simp [Live]

theorem visibleAt_iff_live (hes : Nested es) (he : es[k]? = some e) (hexit : e ≠ .exit) :
    VisibleAt es k n ↔ ∃ i, Live es k i n := by
  rw [visibleAt_iff hes (List.getElem?_eq_some_iff.1 he).1 (by rw [he]; simpa using hexit)]
  constructor
  · rintro ⟨j, hjk, hdeclares, hopen⟩
    have := hopen k (by omega) (by omega)
    exact ⟨(levelAt es k - levelAt es j).toNat, j, hjk, hdeclares, hopen, by omega⟩
  · rintro ⟨i, j, hjk, hdeclares, hopen, -⟩
    exact ⟨j, hjk, hdeclares, hopen⟩

/-- One event keeps a table in step. -/
theorem Tracks.step (h : Tracks es k t) (hes : Nested es) (he : es[k]? = some e) :
    Tracks es (k + 1) (t.step e).1 := by
  have hlevel := levelAt_succ he
  have hdepth := h.depth
  cases e with
  | enter =>
    simp only [ScopeEvent.rise] at hlevel
    refine ⟨?_, ?_⟩
    · simp only [SymbolTable.step, SymbolTable.enter, List.length_cons]
      omega
    · intro i scope hscope n
      cases i with
      | zero =>
        cases hscope
        simpa using not_live_enter he
      | succ i => rw [live_enter he, h.names i scope hscope n]
  | exit =>
    simp only [ScopeEvent.rise] at hlevel
    have hnext := hes.nonneg (k + 1)
    obtain ⟨inner, outer, hnested⟩ : ∃ inner outer, t.nested = inner :: outer := by
      cases hn : t.nested with
      | nil =>
        rw [hn, List.length_nil] at hdepth
        omega
      | cons inner outer => exact ⟨inner, outer, rfl⟩
    have hstep : (t.step .exit).1 = { t with nested := outer } := by
      simp only [SymbolTable.step, SymbolTable.exit?, hnested, Option.getD_some]
    rw [hstep]
    refine ⟨?_, ?_⟩
    · rw [hnested, List.length_cons] at hdepth
      show (outer.length : Int) = _
      omega
    · intro i scope hscope n
      have hscope' : t.scopes[i + 1]? = some scope := by
        rw [SymbolTable.scopes, hnested]
        exact hscope
      rw [live_exit he, h.names (i + 1) scope hscope' n]
  | declare id kind =>
    simp only [ScopeEvent.rise] at hlevel
    have hstep : (t.step (.declare id kind)).1 = (t.declare (SymbolTable.symbolOf id kind)).1 := rfl
    rw [hstep]
    by_cases hlive : Live es k 0 id.name
    · rw [(h.declare_of_live (s := SymbolTable.symbolOf id kind) hlive).1]
      refine ⟨by omega, fun i scope hscope n => ?_⟩
      rw [live_of_rise he rfl, h.names i scope hscope n]
      refine ⟨.inl, ?_⟩
      rintro (hi | ⟨hn, rfl⟩)
      · exact hi
      · cases hn
        exact hlive
    · rw [(h.declare_of_not_live (s := SymbolTable.symbolOf id kind) hlive).1]
      refine ⟨by rw [SymbolTable.length_nested_add]; omega, fun i scope hscope n => ?_⟩
      rw [SymbolTable.scopes_add] at hscope
      rw [live_of_rise he rfl]
      cases i with
      | zero =>
        cases hscope
        rw [List.map_cons, List.mem_cons, h.mem_innermost, or_comm]
        simp [ScopeEvent.declared?, SymbolTable.symbolOf, eq_comm]
      | succ i =>
        have hscope' : t.scopes[i + 1]? = some scope := by
          rw [t.scopes_eq_cons]
          exact hscope
        rw [h.names (i + 1) scope hscope' n]
        simp
  | read id =>
    simp only [ScopeEvent.rise] at hlevel
    refine ⟨by simp only [SymbolTable.step]; omega, fun i scope hscope n => ?_⟩
    rw [live_of_rise he rfl, h.names i scope hscope n]
    simp [ScopeEvent.declared?]

/-- The analysis says of one event what is to be said. -/
theorem Tracks.map_faults (h : Tracks es k t) (hes : Nested es) (he : es[k]? = some e) :
    (t.step e).2.map NameFault.toDiagnostic = diagnosticsAt es k := by
  cases e with
  | enter | exit => simp [SymbolTable.step, diagnosticsAt, he]
  | declare id kind =>
    have htaken : TakenAt es k id.name ↔ Live es k 0 id.name := takenAt_iff_live hes he (by simp)
    by_cases hlive : Live es k 0 id.name
    · have hfresh := (h.declare_of_live (s := SymbolTable.symbolOf id kind) hlive).2
      simp [SymbolTable.step, diagnosticsAt, he, htaken, hlive, hfresh, toDiagnostic_redeclared]
    · have hfresh := (h.declare_of_not_live (s := SymbolTable.symbolOf id kind) hlive).2
      simp [SymbolTable.step, diagnosticsAt, he, htaken, hlive, hfresh]
  | read id =>
    have hlookup := h.isSome_lookup_iff (n := id.name) hes
    rw [← visibleAt_iff_live hes he (by simp)] at hlookup
    by_cases hfound : (t.lookup id.name).isSome = true
    · simp [SymbolTable.step, diagnosticsAt, he, hfound, hlookup.1 hfound]
    · simp [SymbolTable.step, diagnosticsAt, he, hfound, mt hlookup.2 hfound,
        toDiagnostic_undefined]

/-! ## Global symbols -/

/-- The symbol is that of a declaration before event `b` in the global scope, the first one of its
name. -/
def FirstGlobalBefore (es : List ScopeEvent) (b : Nat) (s : Symbol) : Prop :=
  ∃ k, k < b ∧ ∃ id kind, es[k]? = some (.declare id kind) ∧ s = SymbolTable.symbolOf id kind ∧
    StandsIn es 0 es.length k ∧ ¬ TakenAt es k id.name

theorem firstGlobalBefore_length (es : List ScopeEvent) (s : Symbol) :
    FirstGlobalBefore es es.length s ↔ FirstGlobal es s := by
  constructor
  · rintro ⟨k, -, hk⟩
    exact ⟨k, hk⟩
  · rintro ⟨k, id, kind, he, hk⟩
    exact ⟨k, (List.getElem?_eq_some_iff.1 he).1, id, kind, he, hk⟩

/-- The global scope of the table holds the first global declaration of each name before event
`k`. -/
structure TracksGlobals (es : List ScopeEvent) (k : Nat) (t : SymbolTable) : Prop where
  mem : ∀ s, s ∈ t.globals ↔ FirstGlobalBefore es k s
  nodup : (t.globals.map Symbol.name).Nodup

theorem firstGlobalBefore_succ (he : es[k]? = some e) (s : Symbol) :
    FirstGlobalBefore es (k + 1) s ↔ FirstGlobalBefore es k s ∨
      ∃ id kind, e = .declare id kind ∧ s = SymbolTable.symbolOf id kind ∧
        StandsIn es 0 es.length k ∧ ¬ TakenAt es k id.name := by
  constructor
  · rintro ⟨j, hj, id, kind, hdeclare, hs, hin, htaken⟩
    by_cases hjk : j = k
    · subst hjk
      exact .inr ⟨id, kind, Option.some.inj (he.symm.trans hdeclare), hs, hin, htaken⟩
    · exact .inl ⟨j, by omega, id, kind, hdeclare, hs, hin, htaken⟩
  · rintro (⟨j, hj, hrest⟩ | ⟨id, kind, rfl, hs, hin, htaken⟩)
    · exact ⟨j, by omega, hrest⟩
    · exact ⟨k, by omega, id, kind, he, hs, hin, htaken⟩

/-- An event that declares nothing new in the global scope. -/
theorem TracksGlobals.of_globals_eq {t' : SymbolTable} (h : TracksGlobals es k t)
    (he : es[k]? = some e) (hglobals : t'.globals = t.globals)
    (hnew : ∀ id kind, e = .declare id kind → StandsIn es 0 es.length k → TakenAt es k id.name) :
    TracksGlobals es (k + 1) t' := by
  refine ⟨fun s => ?_, by rw [hglobals]; exact h.nodup⟩
  rw [hglobals, h.mem, firstGlobalBefore_succ he]
  refine ⟨.inl, ?_⟩
  rintro (hs | ⟨id, kind, he', -, hin, htaken⟩)
  · exact hs
  · exact absurd (hnew id kind he' hin) htaken

theorem TracksGlobals.step (h : TracksGlobals es k t) (htracks : Tracks es k t) (hes : Nested es)
    (he : es[k]? = some e) : TracksGlobals es (k + 1) (t.step e).1 := by
  have hk : k < es.length := (List.getElem?_eq_some_iff.1 he).1
  cases e with
  | enter | read id => exact h.of_globals_eq he rfl (by rintro _ _ ⟨⟩)
  | exit =>
    refine h.of_globals_eq he ?_ (by rintro _ _ ⟨⟩)
    simp only [SymbolTable.step, SymbolTable.exit?]
    split <;> rfl
  | declare id kind =>
    have htaken : TakenAt es k id.name ↔ Live es k 0 id.name := takenAt_iff_live hes he (by simp)
    have hstep : (t.step (.declare id kind)).1 = (t.declare (SymbolTable.symbolOf id kind)).1 := rfl
    rw [hstep]
    by_cases hlive : Live es k 0 id.name
    · rw [(htracks.declare_of_live (s := SymbolTable.symbolOf id kind) hlive).1]
      refine h.of_globals_eq he rfl ?_
      rintro _ _ ⟨⟩ -
      exact htaken.2 hlive
    · rw [(htracks.declare_of_not_live (s := SymbolTable.symbolOf id kind) hlive).1]
      have hdepth := htracks.depth
      cases hnested : t.nested with
      | cons inner outer =>
        refine h.of_globals_eq he (by simp [SymbolTable.add, hnested]) ?_
        rintro _ _ ⟨⟩ ⟨-, -, hlevel⟩
        rw [levelAt_zero] at hlevel
        rw [hnested, List.length_cons] at hdepth
        omega
      | nil =>
        have hlevel : levelAt es k = levelAt es 0 := by
          rw [hnested, List.length_nil] at hdepth
          rw [levelAt_zero]
          omega
        have hglobals : (t.add (SymbolTable.symbolOf id kind)).globals =
            SymbolTable.symbolOf id kind :: t.globals := by
          simp [SymbolTable.add, hnested]
        have hinnermost : t.innermost = t.globals := by simp [SymbolTable.innermost, hnested]
        refine ⟨fun s => ?_, ?_⟩
        · rw [hglobals, List.mem_cons, h.mem, firstGlobalBefore_succ he, or_comm]
          refine or_congr_right ⟨?_, ?_⟩
          · rintro rfl
            exact ⟨id, kind, rfl, rfl, ⟨by omega, hk, hlevel⟩, mt htaken.1 hlive⟩
          · rintro ⟨_, _, ⟨⟩, hs, -, -⟩
            exact hs
        · rw [hglobals, List.map_cons, List.nodup_cons, ← hinnermost, htracks.mem_innermost,
            hinnermost]
          exact ⟨hlive, h.nodup⟩

/-! ## All events -/

theorem tracks_empty (es : List ScopeEvent) : Tracks es 0 .empty := by
  refine ⟨by simp [SymbolTable.empty, levelAt_zero], fun i scope hscope n => ?_⟩
  have hempty : scope = [] := by
    cases i with
    | zero => cases hscope; rfl
    | succ i => cases hscope
  simp [hempty, Live]

theorem tracksGlobals_empty (es : List ScopeEvent) : TracksGlobals es 0 .empty :=
  ⟨fun s => by simp [SymbolTable.empty, FirstGlobalBefore], List.nodup_nil⟩

/-- A run over the events from place `k` on. -/
theorem run_tracks (hes : Nested es) (rest : List ScopeEvent) (hrest : es.drop k = rest)
    (h : Tracks es k t) (hglobals : TracksGlobals es k t) :
    (t.run rest).2.map NameFault.toDiagnostic =
        (List.range' k rest.length).flatMap (diagnosticsAt es) ∧
      Tracks es (k + rest.length) (t.run rest).1 ∧
      TracksGlobals es (k + rest.length) (t.run rest).1 := by
  induction rest generalizing k t with
  | nil => exact ⟨rfl, h, hglobals⟩
  | cons e rest ih =>
    have he : es[k]? = some e := by
      have := congrArg List.head? hrest
      rwa [List.head?_drop] at this
    have hrest' : es.drop (k + 1) = rest := by
      rw [← List.tail_drop, hrest]
      rfl
    obtain ⟨hfaults, htable, htglobals⟩ := ih hrest' (h.step hes he) (hglobals.step h hes he)
    have hlength : k + (e :: rest).length = k + 1 + rest.length := by
      rw [List.length_cons]
      omega
    rw [hlength]
    refine ⟨?_, htable, htglobals⟩
    simp only [SymbolTable.run, List.map_append, h.map_faults hes he, hfaults, List.length_cons,
      List.range'_succ, List.flatMap_cons]

end Tracks

theorem SymbolTable.pairwise_sortedGlobals {t : SymbolTable}
    (h : (t.globals.map Symbol.name).Nodup) :
    t.sortedGlobals.Pairwise fun s s' => s.name < s'.name := by
  have hperm : t.sortedGlobals.Perm t.globals := List.mergeSort_perm _ _
  have hnames : t.sortedGlobals.Pairwise fun s s' => s.name ≠ s'.name :=
    List.pairwise_map.1 ((hperm.map Symbol.name).nodup_iff.2 h)
  have hsorted : t.sortedGlobals.Pairwise fun s s' => decide (s.name ≤ s'.name) = true := by
    refine List.pairwise_mergeSort (fun a b c hab hbc => ?_) (fun a b => ?_) _
    · simp only [decide_eq_true_eq] at hab hbc ⊢
      exact String.le_trans hab hbc
    · simp only [Bool.or_eq_true, decide_eq_true_eq]
      exact String.le_total _ _
  refine (hsorted.and hnames).imp fun {s s'} hs => ?_
  obtain ⟨hle, hne⟩ := hs
  rw [decide_eq_true_eq] at hle
  exact String.not_le.1 fun hge => hne (String.le_antisymm hle hge)

/-- The analysis of a program reports each read of a name that is neither builtin nor declared
earlier in a scope around the read, and each declaration of a name that its own scope already has,
in order and nothing else. In the end only the global scope is open, and it has the first global
declaration of each name. -/
theorem analyze_lexical (p : Program) :
    (analyze p).2.map NameFault.toDiagnostic =
        (List.range p.events.length).flatMap (diagnosticsAt p.events) ∧
      (analyze p).1.depth = 1 ∧
      ((analyze p).1.sortedGlobals.Pairwise fun s s' => s.name < s'.name) ∧
      ∀ s, s ∈ (analyze p).1.sortedGlobals ↔ FirstGlobal p.events s := by
  have hes : Nested p.events := (Stmt.enclosed_eventsAll p).nested
  rw [analyze_eq_run]
  obtain ⟨hfaults, htracks, hglobals⟩ := run_tracks hes p.events (k := 0) rfl
    (tracks_empty _) (tracksGlobals_empty _)
  rw [Nat.zero_add] at htracks hglobals
  refine ⟨?_, ?_, ?_, fun s => ?_⟩
  · rw [List.range_eq_range']
    exact hfaults
  · have hdepth := htracks.depth
    rw [hes.closed] at hdepth
    rw [SymbolTable.depth]
    omega
  · exact SymbolTable.pairwise_sortedGlobals hglobals.nodup
  · rw [SymbolTable.sortedGlobals, List.mem_mergeSort, ← firstGlobalBefore_length]
    exact hglobals.mem s

end Easel
