import Easel.Proofs.Scope.Lexical
import Easel.Proofs.Script.Hygiene

/-!
# Names that analysed programs see

In the script of a program every body in braces is a scope, and so are the clauses of a loop.
`Stmt.Sees` says that a statement shows only names that are declared in such a scope around them.
The analysis opens scopes for functions and scenes only: what it lets pass sees its names if the
names that other bodies declare are taken as visible everywhere (`sees_of_analyze`).
-/

namespace Easel

/-! ## Tables grow -/

namespace SymbolTable

variable {t t' t'' : SymbolTable}

/-- The later table has the scopes of the earlier one, apart from the innermost. -/
structure Grows (t t' : SymbolTable) : Prop where
  depth_eq : t'.nested.length = t.nested.length
  tail_eq : t'.scopes.tail = t.scopes.tail

theorem Grows.refl (t : SymbolTable) : t.Grows t := ⟨rfl, rfl⟩

theorem Grows.trans (h : t.Grows t') (h' : t'.Grows t'') : t.Grows t'' :=
  ⟨h'.depth_eq.trans h.depth_eq, h'.tail_eq.trans h.tail_eq⟩

theorem Grows.declare (t : SymbolTable) (s : Symbol) : t.Grows (t.declare s).1 := by
  unfold SymbolTable.declare
  split
  · exact .refl t
  · exact ⟨t.length_nested_add s, by rw [t.scopes_add, List.tail_cons]⟩

/-- What happens in a scope is forgotten when it is closed. -/
theorem Grows.exit_eq (h : t.enter.Grows t') : t'.exit?.getD t' = t := by
  obtain ⟨hdepth, htail⟩ := h
  cases hnested : t'.nested with
  | nil =>
    rw [hnested] at hdepth
    cases hdepth
  | cons scope outer =>
    simp only [scopes, hnested, enter, List.cons_append, List.tail_cons] at htail
    obtain ⟨houter, hglobals⟩ := List.append_inj' htail rfl
    simp only [exit?, hnested, Option.getD_some, houter, List.singleton_inj.1 hglobals]

end SymbolTable

/-- Events that close the scopes they open leave a table with the scopes it had, of which only the
innermost may hold more. -/
theorem Enclosed.grows {es : List ScopeEvent} (h : Enclosed es) (t : SymbolTable) :
    t.Grows (t.run es).1 := by
  induction h generalizing t with
  | nil => exact .refl t
  | @cons e es he _ ih =>
    refine SymbolTable.Grows.trans ?_ (ih (t.step e).1)
    cases e with
    | declare id kind => exact .declare t (SymbolTable.symbolOf id kind)
    | read id => exact .refl t
    | enter | exit => cases he
  | @scope inside es _ _ ihinside ih =>
    have hscope : (t.run (.enter :: (inside ++ .exit :: es))).1 = (t.run es).1 := by
      simp only [SymbolTable.run, SymbolTable.step, SymbolTable.run_append,
        (ihinside t.enter).exit_eq]
    rw [hscope]
    exact ih t

/-! ## Names in a table -/

namespace SymbolTable

variable {t : SymbolTable} {W W' : List String} {es es' : List ScopeEvent}

/-- The declared names of the table are among the given ones. -/
def NamesIn (t : SymbolTable) (W : List String) : Prop :=
  ∀ scope ∈ t.scopes, ∀ s ∈ scope, s.name ∈ W

theorem NamesIn.mono (h : t.NamesIn W) (hW : W ⊆ W') : t.NamesIn W' :=
  fun scope hscope s hs => hW (h scope hscope s hs)

theorem NamesIn.of_lookup (h : t.NamesIn W) {n : String} (hn : (t.lookup n).isSome = true) :
    isBuiltin n = true ∨ n ∈ W := by
  rw [isSome_lookup, Bool.or_eq_true, List.any_eq_true] at hn
  refine hn.symm.imp_right ?_
  rintro ⟨names, hnames, hmem⟩
  have hscopes : names ∈ t.scopes.map (List.map Symbol.name) := by
    simpa [scopes] using hnames
  obtain ⟨scope, hscope, rfl⟩ := List.mem_map.1 hscopes
  obtain ⟨s, hs, rfl⟩ := List.mem_map.1 (List.contains_iff_mem.1 hmem)
  exact h scope hscope s hs

theorem NamesIn.enter (h : t.NamesIn W) : t.enter.NamesIn W :=
  List.forall_mem_cons.2 ⟨List.forall_mem_nil _, h⟩

theorem namesIn_step_declare (h : t.NamesIn W) {id : Ident} (kind : SymbolKind)
    (hid : id.name ∈ W) :
    (t.step (.declare id kind)).1.NamesIn W := by
  have hstep : (t.step (.declare id kind)).1 = (t.declare (symbolOf id kind)).1 := rfl
  rw [hstep, declare]
  split
  · exact h
  · rw [NamesIn, t.scopes_add, List.forall_mem_cons, List.forall_mem_cons]
    rw [NamesIn, t.scopes_eq_cons, List.forall_mem_cons] at h
    exact ⟨⟨hid, h.1⟩, h.2⟩

theorem namesIn_run_declares (h : t.NamesIn W) (kind : SymbolKind) {ids : List Ident}
    (hids : ∀ id ∈ ids, id.name ∈ W) :
    (t.run (ids.map fun id => .declare id kind)).1.NamesIn W := by
  induction ids generalizing t with
  | nil => exact h
  | cons id ids ih =>
    obtain ⟨hid, hids⟩ := List.forall_mem_cons.1 hids
    exact ih (namesIn_step_declare h kind hid) hids

/-- Of the names that are read, the analysis reports those that the table does not have. -/
theorem run_readEvents_eq (t : SymbolTable) (ids : List Ident) :
    t.run (readEvents ids) =
      (t, (ids.filter fun id => (t.lookup id.name).isNone).map (⟨·, .undefined⟩)) := by
  induction ids with
  | nil => rfl
  | cons id ids ih =>
    have hrun : t.run (readEvents (id :: ids)) =
        ((t.run (readEvents ids)).1, (t.step (.read id)).2 ++ (t.run (readEvents ids)).2) := rfl
    rw [hrun, ih, List.filter_cons]
    cases h : t.lookup id.name <;> simp [step, h]

theorem run_readEvents (t : SymbolTable) (ids : List Ident) :
    (t.run (readEvents ids)).1 = t ∧
      ((t.run (readEvents ids)).2 = [] → ∀ id ∈ ids, (t.lookup id.name).isSome = true) := by
  rw [run_readEvents_eq]
  refine ⟨rfl, fun hrun id hid => ?_⟩
  simpa [Option.isSome_iff_ne_none] using
    List.filter_eq_nil_iff.1 (List.map_eq_nil_iff.1 hrun) id hid

theorem faults_append (h : (t.run (es ++ es')).2 = []) :
    (t.run es).2 = [] ∧ ((t.run es).1.run es').2 = [] := by
  rw [run_append] at h
  exact List.append_eq_nil_iff.1 h

/-- Reads come first: the names are known, and the table is as it was. -/
theorem run_readEvents_append {ids : List Ident} (h : (t.run (readEvents ids ++ es)).2 = []) :
    (∀ id ∈ ids, (t.lookup id.name).isSome = true) ∧ (t.run es).2 = [] ∧
      (t.run (readEvents ids ++ es)).1 = (t.run es).1 := by
  obtain ⟨hreads, hes⟩ := faults_append h
  obtain ⟨htable, hknown⟩ := t.run_readEvents ids
  rw [htable] at hes
  refine ⟨hknown hreads, hes, ?_⟩
  rw [run_append, htable]

theorem run_scope (h : Enclosed es) (t : SymbolTable) :
    (t.run (.enter :: (es ++ [.exit]))).1 = t ∧
      (t.run (.enter :: (es ++ [.exit]))).2 = (t.enter.run es).2 := by
  simp only [run, step, run_append, (h.grows t.enter).exit_eq, List.nil_append, List.append_nil,
    and_self]

end SymbolTable

/-! ## Names that statements see -/

/-- The statement shows only names that are builtin, among the visible ones, or declared in a scope
of it around them. -/
inductive Stmt.Sees : List String → Stmt → Prop
  | intro {visible : List String} {s : Stmt}
      (hexprs : ∀ e ∈ s.exprs, ∀ n, e.Shows n → isBuiltin n = true ∨ n ∈ s.headNames ++ visible)
      (hcommands : ∀ c ∈ s.commands, ∀ e ∈ c.motion.arguments, ∀ n, e.Shows n →
        isBuiltin n = true ∨ n ∈ visible)
      (hbodies : ∀ body ∈ s.bodies, ∀ s' ∈ body,
        Sees (Stmt.declaredBy body ++ (s.headNames ++ visible)) s') : Sees visible s

mutual

/-- The names that are declared inside a statement in scopes of the script that the analysis does
not open. -/
def Stmt.blockNames : Stmt → List String
  | .function _ _ _ body | .scene _ _ body => Stmt.blockNamesAll body
  | .ifThen _ _ body | .repeatLoop _ _ body | .whileLoop _ _ body =>
    Stmt.declaredBy body ++ Stmt.blockNamesAll body
  | .ifElse _ _ body alternative =>
    Stmt.declaredBy body ++ Stmt.blockNamesAll body ++
      (Stmt.declaredBy alternative ++ Stmt.blockNamesAll alternative)
  | .forLoop _ init _ _ body =>
    Init.names init ++ (Stmt.declaredBy body ++ Stmt.blockNamesAll body)
  | _ => []

/-- The names that are declared inside statements in scopes that the analysis does not open. -/
def Stmt.blockNamesAll : List Stmt → List String
  | [] => []
  | s :: rest => s.blockNames ++ Stmt.blockNamesAll rest

end

/-- Without imports and faults the statement sees its names, and the table after it holds no
others. -/
def Stmt.Analysed (s : Stmt) : Prop :=
  ∀ (t : SymbolTable) (W : List String), s.ownNames ⊆ W → s.blockNames ⊆ W →
    (∀ id, .declare id .imported ∉ s.events) → t.NamesIn W → (t.run s.events).2 = [] →
      s.Sees W ∧ (t.run s.events).1.NamesIn W

section Analysed

open SymbolTable

variable {t : SymbolTable} {W : List String}

theorem Expr.seen_of_reads {es : List Expr} (ht : t.NamesIn W)
    (h : ∀ id ∈ es.flatMap Expr.reads, (t.lookup id.name).isSome = true) :
    ∀ e ∈ es, ∀ n, e.Shows n → isBuiltin n = true ∨ n ∈ W := by
  rintro e he n ⟨spelling, fs, huses⟩
  obtain ⟨id, hid, rfl⟩ := huses.exists_mem_reads
  exact ht.of_lookup (h id (List.mem_flatMap.2 ⟨e, he, hid⟩))

theorem Init.seen_of_run {init : Option Init} (ht : t.NamesIn W)
    (hrun : (t.run ((init.map Init.events).getD [])).2 = []) :
    (∀ e ∈ Init.exprs init, ∀ n, e.Shows n → isBuiltin n = true ∨ n ∈ W) ∧
      (t.run ((init.map Init.events).getD [])).1.NamesIn (Init.names init ++ W) := by
  rcases init with _ | b | e
  · exact ⟨List.forall_mem_nil _, ht⟩
  · obtain ⟨hknown, -, htable⟩ := run_readEvents_append hrun
    refine ⟨Expr.seen_of_reads ht (by simpa [Init.exprs] using hknown), ?_⟩
    rw [Option.map_some, Option.getD_some, Init.events, Binding.events, htable]
    exact namesIn_step_declare (ht.mono (List.subset_append_right _ _)) .var List.mem_cons_self
  · obtain ⟨htable, hknown⟩ := t.run_readEvents e.reads
    refine ⟨Expr.seen_of_reads ht (by simpa [Init.exprs] using hknown hrun), ?_⟩
    rw [Option.map_some, Option.getD_some, Init.events, htable]
    exact ht

theorem Stmt.seesAll_of_run {ss : List Stmt} (ih : ∀ s ∈ ss, s.Analysed)
    (hown : Stmt.declaredBy ss ⊆ W) (hblock : Stmt.blockNamesAll ss ⊆ W)
    (himports : ∀ id, .declare id .imported ∉ Stmt.eventsAll ss) (ht : t.NamesIn W)
    (hrun : (t.run (Stmt.eventsAll ss)).2 = []) :
    (∀ s ∈ ss, s.Sees W) ∧ (t.run (Stmt.eventsAll ss)).1.NamesIn W := by
  induction ss generalizing t with
  | nil => exact ⟨List.forall_mem_nil _, ht⟩
  | cons s ss ihss =>
    obtain ⟨hs, hss⟩ := List.forall_mem_cons.1 ih
    rw [Stmt.declaredBy_cons, List.append_subset] at hown
    rw [Stmt.blockNamesAll, List.append_subset] at hblock
    rw [Stmt.eventsAll] at himports hrun ⊢
    obtain ⟨hrun, hrest⟩ := faults_append hrun
    obtain ⟨hsees, htable⟩ := hs t W hown.1 hblock.1
      (fun id hid => himports id (List.mem_append_left _ hid)) ht hrun
    obtain ⟨hall, htable⟩ := ihss hss hown.2 hblock.2
      (fun id hid => himports id (List.mem_append_right _ hid)) htable hrest
    rw [run_append]
    exact ⟨List.forall_mem_cons.2 ⟨hsees, hall⟩, htable⟩

/-- A body sees the names that it declares as well. -/
theorem Stmt.body_of_run {body : List Stmt} (ih : ∀ s ∈ body, s.Analysed)
    (hblock : Stmt.blockNamesAll body ⊆ W)
    (himports : ∀ id, .declare id .imported ∉ Stmt.eventsAll body) (ht : t.NamesIn W)
    (hrun : (t.run (Stmt.eventsAll body)).2 = []) :
    (∀ s ∈ body, s.Sees (Stmt.declaredBy body ++ W)) ∧
      (t.run (Stmt.eventsAll body)).1.NamesIn (Stmt.declaredBy body ++ W) :=
  Stmt.seesAll_of_run ih (List.subset_append_left _ _)
    (List.subset_append_of_subset_right _ hblock) himports
    (ht.mono (List.subset_append_right _ _)) hrun

/-- A body in braces without a scope of the analysis leaves its names behind. -/
theorem Stmt.block_of_run {body : List Stmt} (ih : ∀ s ∈ body, s.Analysed)
    (hnames : Stmt.declaredBy body ++ Stmt.blockNamesAll body ⊆ W)
    (himports : ∀ id, .declare id .imported ∉ Stmt.eventsAll body) (ht : t.NamesIn W)
    (hrun : (t.run (Stmt.eventsAll body)).2 = []) :
    (∀ s ∈ body, s.Sees (Stmt.declaredBy body ++ W)) ∧
      (t.run (Stmt.eventsAll body)).1.NamesIn W := by
  obtain ⟨hdeclared, hblock⟩ := List.append_subset.1 hnames
  obtain ⟨hsees, htable⟩ := Stmt.body_of_run ih hblock himports ht hrun
  exact ⟨hsees, htable.mono (List.append_subset.2 ⟨hdeclared, List.Subset.refl W⟩)⟩

/-- A body in a scope of its own sees the parameters too, and leaves no name behind. -/
theorem Stmt.scope_of_run {body : List Stmt} (ih : ∀ s ∈ body, s.Analysed) (params : List Ident)
    (hblock : Stmt.blockNamesAll body ⊆ W)
    (himports : ∀ id, .declare id .imported ∉ Stmt.eventsAll body) (ht : t.NamesIn W)
    (hrun : (t.run (.enter :: (params.map (fun p => .declare p .parameter) ++
      Stmt.eventsAll body ++ [.exit]))).2 = []) :
    (∀ s ∈ body, s.Sees (Stmt.declaredBy body ++ (params.map Ident.name ++ W))) ∧
      (t.run (.enter :: (params.map (fun p => .declare p .parameter) ++
        Stmt.eventsAll body ++ [.exit]))).1 = t := by
  obtain ⟨htable, hfaults⟩ := run_scope ((Enclosed.map (fun p => .declare p .parameter)
    (fun _ => rfl) params).append (Stmt.enclosed_eventsAll body)) t
  rw [hfaults] at hrun
  obtain ⟨-, hbody⟩ := faults_append hrun
  have hparams := namesIn_run_declares (ht.enter.mono (List.subset_append_right (params.map _) W))
    .parameter fun id hid => List.mem_append_left _ (List.mem_map_of_mem hid)
  exact ⟨(Stmt.body_of_run ih (List.subset_append_of_subset_right _ hblock) himports hparams
    hbody).1, htable⟩

theorem Motion.reads_eq_flatMap (m : Motion) : m.reads = m.arguments.flatMap Expr.reads := by
  cases m <;> simp [Motion.reads, Motion.arguments, Expr.readsOptional_eq_flatMap]

theorem Stmt.analysed (s : Stmt) : s.Analysed := by
  induction s using Stmt.bodies_induction with
  | h s ih =>
  intro t W hown hblock himports ht hrun
  cases s with
  | binding b =>
    obtain ⟨hknown, -, htable⟩ := run_readEvents_append hrun
    refine ⟨.intro (Expr.seen_of_reads ht ?_) (by simp [Stmt.commands]) (by simp [Stmt.bodies]), ?_⟩
    · simpa [Stmt.exprs] using hknown
    · rw [Stmt.events, Binding.events, htable]
      exact namesIn_step_declare ht .var (hown (List.mem_singleton_self _))
  | ret p value =>
    obtain ⟨htable, hknown⟩ := t.run_readEvents (Expr.readsOptional value)
    refine ⟨.intro (Expr.seen_of_reads ht ?_) (by simp [Stmt.commands]) (by simp [Stmt.bodies]), ?_⟩
    · rw [Stmt.exprs, ← Expr.readsOptional_eq_flatMap]
      exact hknown hrun
    · rw [Stmt.events, htable]
      exact ht
  | expr e =>
    obtain ⟨htable, hknown⟩ := t.run_readEvents e.reads
    refine ⟨.intro (Expr.seen_of_reads ht ?_) (by simp [Stmt.commands]) (by simp [Stmt.bodies]), ?_⟩
    · simpa [Stmt.exprs] using hknown hrun
    · rw [Stmt.events, htable]
      exact ht
  | animate p commands =>
    have hevents : (Stmt.animate p commands).events =
        readEvents (commands.flatMap fun c => c.motion.reads) := by
      simp [Stmt.events, readEvents, List.map_flatMap]
    obtain ⟨htable, hknown⟩ := t.run_readEvents (commands.flatMap fun c => c.motion.reads)
    rw [hevents] at hrun ⊢
    rw [htable]
    refine ⟨.intro (by simp [Stmt.exprs]) (fun c hc => Expr.seen_of_reads ht ?_)
      (by simp [Stmt.bodies]), ht⟩
    rw [← Motion.reads_eq_flatMap]
    exact fun id hid => hknown hrun id (List.mem_flatMap.2 ⟨c, hc, hid⟩)
  | ifThen p cond body | repeatLoop p cond body | whileLoop p cond body =>
    obtain ⟨hknown, hbody, htable⟩ := run_readEvents_append hrun
    obtain ⟨hsees, hnames⟩ := Stmt.block_of_run (ih body (by simp [Stmt.bodies])) hblock
      (fun id hid => himports id (List.mem_append_right _ hid)) ht hbody
    refine ⟨.intro (Expr.seen_of_reads ht ?_) (by simp [Stmt.commands]) ?_, ?_⟩
    · simpa [Stmt.exprs] using hknown
    · simpa [Stmt.bodies, Stmt.headNames] using hsees
    · rw [Stmt.events, htable]
      exact hnames
  | ifElse p cond body alternative =>
    rw [Stmt.events, List.append_assoc] at himports hrun ⊢
    obtain ⟨hknown, hrest, htable⟩ := run_readEvents_append hrun
    obtain ⟨hbody, halternative⟩ := faults_append hrest
    obtain ⟨hblock, hblock'⟩ := List.append_subset.1 hblock
    obtain ⟨hsees, hnames⟩ := Stmt.block_of_run (ih body (by simp [Stmt.bodies])) hblock
      (fun id hid => himports id (List.mem_append_right _ (List.mem_append_left _ hid))) ht hbody
    obtain ⟨hsees', hnames'⟩ := Stmt.block_of_run (ih alternative (by simp [Stmt.bodies])) hblock'
      (fun id hid => himports id (List.mem_append_right _ (List.mem_append_right _ hid))) hnames
      halternative
    refine ⟨.intro (Expr.seen_of_reads ht ?_) (by simp [Stmt.commands]) ?_, ?_⟩
    · simpa [Stmt.exprs] using hknown
    · simpa [Stmt.bodies, Stmt.headNames] using And.intro hsees hsees'
    · rw [htable, run_append]
      exact hnames'
  | forLoop p init cond update body =>
    rw [Stmt.events, List.append_assoc, List.append_assoc] at himports hrun ⊢
    obtain ⟨hinit, hrest⟩ := faults_append hrun
    obtain ⟨hseen, htinit⟩ := Init.seen_of_run ht hinit
    obtain ⟨hcond, hrest, htable⟩ := run_readEvents_append hrest
    obtain ⟨hupdate, hbody, htable'⟩ := run_readEvents_append hrest
    obtain ⟨hinitNames, hblock⟩ := List.append_subset.1 hblock
    obtain ⟨hsees, hnames⟩ := Stmt.block_of_run (ih body (by simp [Stmt.bodies]))
      (List.subset_append_of_subset_right _ hblock)
      (fun id hid => himports id (by simp [hid])) htinit hbody
    refine ⟨.intro ?_ (by simp [Stmt.commands]) ?_, ?_⟩
    · refine List.forall_mem_append.2 ⟨fun e he n hn => ?_, Expr.seen_of_reads htinit ?_⟩
      · exact (hseen e he n hn).imp_right (List.mem_append_right _)
      · rw [List.flatMap_cons, ← Expr.readsOptional_eq_flatMap]
        exact List.forall_mem_append.2 ⟨hcond, hupdate⟩
    · simpa [Stmt.bodies, Stmt.headNames] using hsees
    · rw [run_append, htable, htable']
      exact hnames.mono (List.append_subset.2 ⟨hinitNames, List.Subset.refl W⟩)
  | function p name params body =>
    have hname := namesIn_step_declare ht .function (hown (List.mem_singleton_self name.name))
    obtain ⟨-, hscope⟩ := List.append_eq_nil_iff.1 hrun
    obtain ⟨hsees, htable⟩ := Stmt.scope_of_run (ih body (by simp [Stmt.bodies])) params hblock
      (fun id hid => himports id (by simp [Stmt.events, hid])) hname hscope
    refine ⟨.intro (by simp [Stmt.exprs]) (by simp [Stmt.commands]) ?_, ?_⟩
    · simpa [Stmt.bodies, Stmt.headNames] using hsees
    · rw [Stmt.events, run, htable]
      exact hname
  | scene p name body =>
    obtain ⟨hsees, htable⟩ := Stmt.scope_of_run (ih body (by simp [Stmt.bodies])) [] hblock
      (fun id hid => himports id (by simp [Stmt.events, hid])) ht hrun
    refine ⟨.intro (by simp [Stmt.exprs]) (by simp [Stmt.commands]) ?_, ?_⟩
    · simpa [Stmt.bodies, Stmt.headNames] using hsees
    · exact htable.symm ▸ ht
  | importFrom p names source =>
    cases names with
    | nil =>
      exact ⟨.intro (by simp [Stmt.exprs]) (by simp [Stmt.commands]) (by simp [Stmt.bodies]), ht⟩
    | cons name names => exact absurd List.mem_cons_self (himports name)

end Analysed

/-- A program without imports and faults sees its names if those of its blocks count as visible. -/
theorem sees_of_analyze {p : Program} (himports : ∀ id, .declare id .imported ∉ p.events)
    (h : (analyze p).2 = []) :
    ∀ s ∈ p, s.Sees (Stmt.declaredBy p ++ Stmt.blockNamesAll p) := by
  have hempty : SymbolTable.NamesIn .empty (Stmt.declaredBy p ++ Stmt.blockNamesAll p) := by
    simp [SymbolTable.NamesIn, SymbolTable.scopes, SymbolTable.empty]
  rw [analyze_eq_run] at h
  exact (Stmt.seesAll_of_run (fun s _ => s.analysed) (List.subset_append_left _ _)
    (List.subset_append_right _ _) himports hempty h).1

end Easel
