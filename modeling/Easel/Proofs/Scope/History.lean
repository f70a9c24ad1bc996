import Easel.Proofs.Scope.Lexical
import Easel.Scope.Session
import Mathlib.Data.List.Forall2
import Mathlib.Data.List.Nodup

/-!
# Symbol tables and the calls made on them

A table is what the calls made on it have left (`History.table`).  Each `enter` opens a scope of its
own, with a number that no other scope has, so a history says which scopes are open and what was
declared in which of them (`History.openScopes`, `History.Declared`).  The scopes of the table hold
exactly this (`History.forall₂_holds`), so every answer is the one that lexical scoping gives
(`History.Lexical`).

A session makes a sequence of calls, up to those that a failure passes over (`Op.callsAll`), and what
it runs in a scope of its own leaves the table alone if it closes just the scopes it opens, also if
it fails: `session_lexical`.
-/

namespace Easel.SymbolTable

/-! ## Histories -/

/-- A call on a table. -/
inductive Call where
  | enter
  | exit
  | declare (s : Symbol)
  | lookup (name : String)
  deriving DecidableEq

/-- The table after a call. -/
def perform (t : SymbolTable) : Call → SymbolTable
  | .enter => t.enter
  | .exit => t.close.1
  | .declare s => (t.declare s).1
  | .lookup _ => t

/-- The calls made on a table so far, the last one first. -/
abbrev History := List Call

namespace History

/-- The table after the calls of a history. -/
def table : History → SymbolTable
  | [] => .empty
  | c :: earlier => (table earlier).perform c

/-- The numbers of the open scopes, the innermost first. The `n`-th scope that is opened has the
number `n`, and the global scope, which is never closed, has the number zero. -/
def openScopes : History → List Nat
  | [] => [0]
  | .enter :: earlier => (earlier.count .enter + 1) :: openScopes earlier
  | .exit :: earlier =>
    match openScopes earlier with
    | _ :: outer :: rest => outer :: rest
    | scopes => scopes
  | .declare _ :: earlier | .lookup _ :: earlier => openScopes earlier

/-- The innermost open scope. -/
def current (h : History) : Nat := h.openScopes.headD 0

/-- The symbol was declared while the scope was the innermost one, and the declaration succeeded. -/
def Declared (h : History) (scope : Nat) (s : Symbol) : Prop :=
  ∃ earlier, .declare s :: earlier <:+ h ∧ ((table earlier).declare s).2.2 = true ∧
    current earlier = scope

/-- The symbol is the one declared under the name in the innermost open scope that has one. -/
def Visible (h : History) (name : String) (s : Symbol) : Prop :=
  ∃ inner scope outer, h.openScopes = inner ++ scope :: outer ∧ h.Declared scope s ∧
    s.name = name ∧ ∀ m ∈ inner, ∀ s', h.Declared m s' → s'.name ≠ name

/-- After the calls of a history the table answers as lexical scoping says. -/
structure Lexical (h : History) : Prop where
  depth : h.table.depth = h.openScopes.length
  exit : h.table.exit? = none ↔ h.openScopes = [0]
  taken : ∀ s earlier, h.Declared h.current earlier → earlier.name = s.name →
    h.table.declare s = (h.table, earlier, false)
  fresh : ∀ s, (∀ earlier, h.Declared h.current earlier → earlier.name ≠ s.name) →
    (h.table.declare s).2 = (s, true)
  visible : ∀ name s, h.Visible name s → h.table.lookup name = some s
  hidden : ∀ name, (∀ s, ¬ h.Visible name s) → h.table.lookup name = builtin? name

variable {h : History} {c : Call} {s s' : Symbol} {n : Nat} {name : String} {scope : Scope}

/-! ## Open scopes -/

theorem openScopes_exit (h : History) :
    openScopes (.exit :: h) = if h.openScopes.tail = [] then h.openScopes else h.openScopes.tail := by
  rw [openScopes]
  rcases h.openScopes with _ | ⟨n, _ | ⟨m, rest⟩⟩ <;> rfl

theorem openScopes_ne_nil (h : History) : h.openScopes ≠ [] := by
  induction h with
  | nil => exact List.cons_ne_nil _ _
  | cons c h ih =>
    cases c with
    | enter => exact List.cons_ne_nil _ _
    | exit =>
      rw [openScopes_exit]
      split
      · exact ih
      · assumption
    | declare s => exact ih
    | lookup name => exact ih

theorem openScopes_eq_cons (h : History) : h.openScopes = h.current :: h.openScopes.tail := by
  obtain ⟨n, rest, heq⟩ := List.exists_cons_of_ne_nil h.openScopes_ne_nil
  rw [current, heq]
  rfl

theorem le_count_of_mem (hn : n ∈ h.openScopes) : n ≤ h.count .enter := by
  induction h with
  | nil =>
    rw [List.mem_singleton.1 hn]
    exact Nat.zero_le _
  | cons c h ih =>
    cases c with
    | enter =>
      rw [List.count_cons_self]
      rcases List.mem_cons.1 hn with rfl | hn
      · exact Nat.le_refl _
      · exact Nat.le_succ_of_le (ih hn)
    | exit =>
      rw [List.count_cons_of_ne (by decide)]
      rw [openScopes_exit] at hn
      split at hn
      · exact ih hn
      · exact ih (List.mem_of_mem_tail hn)
    | declare | lookup =>
      rw [List.count_cons_of_ne (by simp)]
      exact ih hn

/-- A scope that is further out was opened earlier. -/
theorem pairwise_openScopes (h : History) : h.openScopes.Pairwise (· > ·) := by
  induction h with
  | nil => exact List.pairwise_singleton _ _
  | cons c h ih =>
    cases c with
    | enter => exact List.pairwise_cons.2 ⟨fun n hn => Nat.lt_succ_of_le (le_count_of_mem hn), ih⟩
    | exit =>
      rw [openScopes_exit]
      split
      · exact ih
      · exact ih.tail
    | declare s => exact ih
    | lookup name => exact ih

theorem current_le (h : History) : h.current ≤ h.count .enter :=
  le_count_of_mem (h.openScopes_eq_cons ▸ List.mem_cons_self)

/-! ## Declarations -/

theorem declared_cons : Declared (c :: h) n s ↔
    h.Declared n s ∨ (c = .declare s ∧ (h.table.declare s).2.2 = true ∧ h.current = n) := by
  constructor
  · rintro ⟨earlier, hsuffix, hfresh, hscope⟩
    rcases List.suffix_cons_iff.1 hsuffix with heq | hsuffix
    · obtain ⟨rfl, rfl⟩ := List.cons.inj heq
      exact .inr ⟨rfl, hfresh, hscope⟩
    · exact .inl ⟨earlier, hsuffix, hfresh, hscope⟩
  · rintro (⟨earlier, hsuffix, hfresh, hscope⟩ | ⟨rfl, hfresh, hscope⟩)
    · exact ⟨earlier, hsuffix.trans (List.suffix_cons c h), hfresh, hscope⟩
    · exact ⟨h, List.suffix_refl _, hfresh, hscope⟩

/-- Only a declaration makes a difference to what is declared. -/
theorem declared_cons_of_ne (hc : ∀ s, c ≠ .declare s) : Declared (c :: h) n s ↔ h.Declared n s := by
  rw [declared_cons]
  exact or_iff_left fun hdeclare => hc s hdeclare.1

theorem Declared.le_count (hs : h.Declared n s) : n ≤ h.count .enter := by
  obtain ⟨earlier, hsuffix, -, rfl⟩ := hs
  have hcount := hsuffix.sublist.count_le (a := Call.enter)
  rw [List.count_cons_of_ne (by simp)] at hcount
  exact Nat.le_trans (current_le earlier) hcount

/-! ## What a table holds -/

/-- The scope has the symbols that were declared in it, each under a name of its own. -/
structure Holds (h : History) (n : Nat) (scope : Scope) : Prop where
  distinct : (scope.map Symbol.name).Nodup
  mem_iff : ∀ s, s ∈ scope ↔ h.Declared n s

theorem Holds.find?_eq_some_iff (hscope : Holds h n scope) :
    scope.find? name = some s ↔ h.Declared n s ∧ s.name = name := by
  rw [← hscope.mem_iff, Scope.find?]
  constructor
  · intro hfind
    have hname := List.find?_some hfind
    exact ⟨List.mem_of_find?_eq_some hfind, beq_iff_eq.1 hname⟩
  · rintro ⟨hmem, hname⟩
    cases hfind : List.find? (fun s => s.name == name) scope with
    | none => exact absurd (beq_iff_eq.2 hname) (List.find?_eq_none.1 hfind s hmem)
    | some found =>
      have hfound := List.find?_some hfind
      rw [List.inj_on_of_nodup_map hscope.distinct (List.mem_of_find?_eq_some hfind) hmem
        ((beq_iff_eq.1 hfound).trans hname.symm)]

theorem Holds.find?_eq_none_iff (hscope : Holds h n scope) :
    scope.find? name = none ↔ ∀ s, h.Declared n s → s.name ≠ name := by
  rw [Option.eq_none_iff_forall_ne_some]
  refine forall_congr' fun s => ?_
  rw [Ne, hscope.find?_eq_some_iff, not_and]

theorem Holds.of_ne (hscope : Holds h n scope) (hc : ∀ s, c ≠ .declare s) :
    Holds (c :: h) n scope :=
  ⟨hscope.distinct, fun s => by rw [hscope.mem_iff, declared_cons_of_ne hc]⟩

/-- A declaration in another scope makes no difference. -/
theorem Holds.of_other (hscope : Holds h n scope) (hn : n ≠ h.current) (s : Symbol) :
    Holds (.declare s :: h) n scope := by
  refine ⟨hscope.distinct, fun s' => ?_⟩
  rw [hscope.mem_iff, declared_cons, or_iff_left]
  rintro ⟨-, -, heq⟩
  exact hn heq.symm

/-- A declaration that succeeds adds its symbol to the innermost scope. -/
theorem Holds.add (hscope : Holds h h.current scope) (hfind : scope.find? s.name = none)
    (hfresh : (h.table.declare s).2.2 = true) : Holds (.declare s :: h) h.current (s :: scope) := by
  refine ⟨?_, fun s' => ?_⟩
  · rw [List.map_cons, List.nodup_cons]
    refine ⟨?_, hscope.distinct⟩
    rintro hmem
    obtain ⟨s', hs', hname⟩ := List.mem_map.1 hmem
    exact hscope.find?_eq_none_iff.1 hfind s' ((hscope.mem_iff s').1 hs') hname
  · rw [List.mem_cons, hscope.mem_iff, declared_cons, or_comm]
    refine or_congr_right ⟨?_, fun hdeclared => ?_⟩
    · rintro rfl
      exact ⟨rfl, hfresh, rfl⟩
    · exact (Call.declare.inj hdeclared.1).symm

/-- A declaration that fails leaves the innermost scope as it is. -/
theorem Holds.keep (hscope : Holds h n scope) (hfresh : (h.table.declare s).2.2 = false) :
    Holds (.declare s :: h) n scope := by
  refine ⟨hscope.distinct, fun s' => ?_⟩
  rw [hscope.mem_iff, declared_cons, or_iff_left]
  rintro ⟨heq, hdeclared, -⟩
  cases heq
  rw [hfresh] at hdeclared
  cases hdeclared

theorem scopes_close (t : SymbolTable) :
    t.close.1.scopes = if t.scopes.tail = [] then t.scopes else t.scopes.tail := by
  obtain ⟨nested, globals⟩ := t
  cases nested with
  | nil => rfl
  | cons inner outer =>
    rw [if_neg (by simp [scopes])]
    rfl

theorem forall₂_holds_declare (hscopes : List.Forall₂ h.Holds h.openScopes h.table.scopes)
    (s : Symbol) : List.Forall₂ (Holds (.declare s :: h)) h.openScopes (h.table.declare s).1.scopes := by
  cases hfind : h.table.innermost.find? s.name with
  | some earlier =>
    have hdeclare : h.table.declare s = (h.table, earlier, false) := by
      rw [SymbolTable.declare, hfind]
    rw [hdeclare]
    exact hscopes.imp fun n scope hscope => hscope.keep (by rw [hdeclare])
  | none =>
    have hdeclare : h.table.declare s = (h.table.add s, s, true) := by
      rw [SymbolTable.declare, hfind]
    have houter : ∀ n ∈ h.openScopes.tail, n ≠ h.current := by
      have horder := h.pairwise_openScopes
      rw [openScopes_eq_cons, List.pairwise_cons] at horder
      exact fun n hn => Nat.ne_of_lt (horder.1 n hn)
    rw [openScopes_eq_cons, scopes_eq_cons, List.forall₂_cons] at hscopes
    rw [hdeclare, scopes_add, openScopes_eq_cons]
    refine .cons (hscopes.1.add hfind (by rw [hdeclare])) ?_
    refine ((List.forall₂_and_left _ _).2 ⟨houter, hscopes.2⟩).imp ?_
    rintro n scope ⟨hn, hscope⟩
    exact hscope.of_other hn s

/-- The scopes of a table hold what was declared in them. -/
theorem forall₂_holds (h : History) : List.Forall₂ h.Holds h.openScopes h.table.scopes := by
  induction h with
  | nil =>
    have hnone : ∀ s, ¬ Declared [] 0 s := by
      rintro s ⟨earlier, hsuffix, -⟩
      exact absurd (List.suffix_nil.1 hsuffix) (List.cons_ne_nil _ _)
    exact .cons ⟨List.nodup_nil, fun s => iff_of_false List.not_mem_nil (hnone s)⟩ .nil
  | cons c h ih =>
    cases c with
    | enter =>
      have hkept := ih.imp fun n scope hscope => Holds.of_ne hscope (c := .enter) (by rintro _ ⟨⟩)
      refine .cons ⟨List.nodup_nil, fun s => iff_of_false List.not_mem_nil fun hs => ?_⟩ hkept
      -- no scope had this number before
      have hle := ((declared_cons_of_ne (by rintro _ ⟨⟩)).1 hs).le_count
      omega
    | exit =>
      have hkept := ih.imp fun n scope hscope => Holds.of_ne hscope (c := .exit) (by rintro _ ⟨⟩)
      show List.Forall₂ _ _ (table h).close.1.scopes
      rw [openScopes_exit, scopes_close]
      generalize openScopes h = ns, (table h).scopes = scopes at hkept
      rcases hkept with _ | ⟨hscope, _ | ⟨hnext, hmore⟩⟩
      · exact .nil
      · exact .cons hscope .nil
      · exact .cons hnext hmore
    | declare s => exact forall₂_holds_declare ih s
    | lookup name => exact ih.imp fun n scope hscope => hscope.of_ne (by rintro _ ⟨⟩)

theorem holds_innermost (h : History) : h.Holds h.current h.table.innermost := by
  have hscopes := h.forall₂_holds
  rw [openScopes_eq_cons, scopes_eq_cons] at hscopes
  exact (List.forall₂_cons.1 hscopes).1

/-! ## Answers -/

theorem findSome?_eq_some_iff {ns : List Nat} {scopes : List Scope}
    (hscopes : List.Forall₂ h.Holds ns scopes) :
    (scopes.findSome? fun scope => scope.find? name) = some s ↔
      ∃ inner n outer, ns = inner ++ n :: outer ∧ h.Declared n s ∧ s.name = name ∧
        ∀ m ∈ inner, ∀ s', h.Declared m s' → s'.name ≠ name := by
  induction hscopes with
  | nil => simp
  | @cons n scope ns scopes hscope _ ih =>
    rw [List.findSome?_cons]
    cases hfind : scope.find? name with
    | some found =>
      obtain ⟨hdeclared, hname⟩ := hscope.find?_eq_some_iff.1 hfind
      constructor
      · rintro ⟨⟩
        exact ⟨[], n, ns, rfl, hdeclared, hname, by simp⟩
      · rintro ⟨_ | ⟨m, inner⟩, n', outer, hsplit, hs, hsname, hinner⟩
        · cases hsplit
          exact hfind.symm.trans (hscope.find?_eq_some_iff.2 ⟨hs, hsname⟩)
        · cases hsplit
          exact absurd hname (hinner n List.mem_cons_self found hdeclared)
    | none =>
      have hnone := hscope.find?_eq_none_iff.1 hfind
      refine ih.trans ⟨?_, ?_⟩
      · rintro ⟨inner, n', outer, rfl, hs, hsname, hinner⟩
        exact ⟨n :: inner, n', outer, rfl, hs, hsname, List.forall_mem_cons.2 ⟨hnone, hinner⟩⟩
      · rintro ⟨_ | ⟨m, inner⟩, n', outer, hsplit, hs, hsname, hinner⟩
        · cases hsplit
          exact absurd hsname (hnone s hs)
        · cases hsplit
          exact ⟨inner, n', outer, rfl, hs, hsname, (List.forall_mem_cons.1 hinner).2⟩

theorem lookup_eq (h : History) (name : String) : h.table.lookup name =
    (h.table.scopes.findSome? fun scope => scope.find? name).or (builtin? name) := rfl

theorem getLast?_openScopes (h : History) : h.openScopes.getLast? = some 0 := by
  induction h with
  | nil => rfl
  | cons c h ih =>
    cases c with
    | enter =>
      rw [openScopes, openScopes_eq_cons, List.getLast?_cons_cons, ← openScopes_eq_cons]
      exact ih
    | exit =>
      rw [openScopes_exit]
      split
      · exact ih
      · next hne =>
        rw [openScopes_eq_cons] at ih
        obtain ⟨m, rest, htail⟩ := List.exists_cons_of_ne_nil hne
        rw [htail, List.getLast?_cons_cons] at ih
        rw [htail, ih]
    | declare s => exact ih
    | lookup name => exact ih

theorem length_openScopes (h : History) : h.openScopes.length = h.table.depth := by
  rw [h.forall₂_holds.length_eq, scopes, List.length_append]
  rfl

/-- After any calls a table answers as lexical scoping says. -/
theorem lexical (h : History) : h.Lexical where
  depth := h.length_openScopes.symm
  exit := by
    have hlast := h.getLast?_openScopes
    have hlength := h.length_openScopes
    rw [exit?]
    rw [SymbolTable.depth] at hlength
    cases hnested : h.table.nested with
    | nil =>
      rw [hnested, List.length_nil, Nat.zero_add] at hlength
      obtain ⟨n, hn⟩ := List.length_eq_one_iff.1 hlength
      rw [hn, List.getLast?_singleton] at hlast
      rw [hn, Option.some_inj.1 hlast]
      exact iff_of_true rfl rfl
    | cons inner outer =>
      refine iff_of_false (Option.some_ne_none _) fun hsingle => ?_
      rw [hnested, hsingle] at hlength
      simp at hlength
  taken := by
    intro s earlier hdeclared hname
    have hfind := h.holds_innermost.find?_eq_some_iff.2 ⟨hdeclared, hname⟩
    rw [SymbolTable.declare, hfind]
  fresh := by
    intro s hnone
    have hfind := h.holds_innermost.find?_eq_none_iff.2 hnone
    rw [SymbolTable.declare, hfind]
  visible := by
    intro name s hvisible
    rw [lookup_eq, (findSome?_eq_some_iff h.forall₂_holds).2 hvisible]
    rfl
  hidden := by
    intro name hhidden
    have hnone : (h.table.scopes.findSome? fun scope => scope.find? name) = none := by
      rw [Option.eq_none_iff_forall_ne_some]
      intro s hsome
      exact hhidden s ((findSome?_eq_some_iff h.forall₂_holds).1 hsome)
    rw [lookup_eq, hnone]
    rfl

theorem table_reverse_append (calls : List Call) (h : History) :
    table (calls.reverse ++ h) = calls.foldl perform h.table := by
  induction calls generalizing h with
  | nil => rfl
  | cons c calls ih =>
    rw [List.reverse_cons, List.append_assoc, List.singleton_append, ih (c :: h)]
    rfl

end History

/-! ## Scopes around calls -/

/-- The calls close no scope that they did not open, and in the end they have closed all that they
opened. -/
def Balanced (body : List Call) : Prop :=
  (∀ k ≤ body.length, (body.take k).count .exit ≤ (body.take k).count .enter) ∧
    body.count .exit = body.count .enter

instance (body : List Call) : Decidable (Balanced body) := inferInstanceAs (Decidable (_ ∧ _))

theorem exists_perform {inner : List Scope} (outer : List Scope) (globals : Scope) (c : Call)
    (hc : [c].count .exit < inner.length) :
    ∃ inner', perform ⟨inner ++ outer, globals⟩ c = ⟨inner' ++ outer, globals⟩ ∧
      inner'.length + [c].count .exit = inner.length + [c].count .enter := by
  obtain ⟨scope, scopes, rfl⟩ := List.exists_cons_of_length_pos (Nat.zero_lt_of_lt hc)
  cases c with
  | enter => exact ⟨[] :: scope :: scopes, rfl, rfl⟩
  | exit => exact ⟨scopes, rfl, rfl⟩
  | declare s =>
    simp only [perform, SymbolTable.declare, innermost, List.cons_append, List.headD_cons]
    cases scope.find? s.name with
    | some earlier => exact ⟨scope :: scopes, rfl, rfl⟩
    | none => exact ⟨(s :: scope) :: scopes, rfl, rfl⟩
  | lookup name => exact ⟨scope :: scopes, rfl, rfl⟩

/-- Calls that leave one of the inner scopes open do nothing to the outer ones. -/
theorem exists_foldl_perform {body : List Call} {inner : List Scope} (outer : List Scope)
    (globals : Scope)
    (hbody : ∀ k ≤ body.length,
      (body.take k).count .exit < inner.length + (body.take k).count .enter) :
    ∃ inner', body.foldl perform ⟨inner ++ outer, globals⟩ = ⟨inner' ++ outer, globals⟩ ∧
      inner'.length + body.count .exit = inner.length + body.count .enter := by
  induction body generalizing inner with
  | nil => exact ⟨inner, rfl, rfl⟩
  | cons c rest ih =>
    have hcount (a : Call) (calls : List Call) :
        (c :: calls).count a = [c].count a + calls.count a := by
      rw [← List.singleton_append, List.count_append]
    have hfirst : [c].count .exit < inner.length := by
      have hstart : 0 < inner.length := hbody 0 (Nat.zero_le _)
      have hnext : [c].count .exit < inner.length + [c].count .enter := hbody 1 (by simp)
      cases c with
      | exit => exact hnext
      | enter | declare s | lookup name => exact hstart
    obtain ⟨inner₁, hperform, hlength⟩ := exists_perform outer globals c hfirst
    have hrestBody : ∀ k ≤ rest.length,
        (rest.take k).count .exit < inner₁.length + (rest.take k).count .enter := by
      intro k hk
      have := hbody (k + 1) (Nat.succ_le_succ hk)
      rw [List.take_succ_cons, hcount .exit, hcount .enter] at this
      omega
    obtain ⟨inner', hrest, hlength'⟩ := ih hrestBody
    refine ⟨inner', ?_, ?_⟩
    · rw [List.foldl_cons, hperform, hrest]
    · rw [hcount .exit, hcount .enter]
      omega

/-- Calls that close the scopes they open, in a scope of their own, leave a table as it was. -/
theorem close_balanced {body : List Call} (hbody : Balanced body) (t : SymbolTable) :
    (body.foldl perform t.enter).close = (t, none) := by
  obtain ⟨nested, globals⟩ := t
  have hopen : ∀ k ≤ body.length,
      (body.take k).count .exit < [([] : Scope)].length + (body.take k).count .enter := by
    intro k hk
    have := hbody.1 k hk
    simp only [List.length_singleton]
    omega
  obtain ⟨inner, hcalls, hlength⟩ := exists_foldl_perform nested globals hopen
  have hone : inner.length = 1 := by
    have := hbody.2
    simp only [List.length_singleton] at hlength
    omega
  obtain ⟨scope, rfl⟩ := List.length_eq_one_iff.1 hone
  have hcalls' : body.foldl perform (enter ⟨nested, globals⟩) = ⟨scope :: nested, globals⟩ := hcalls
  rw [hcalls']
  rfl

/-! ## Sessions -/

mutual

/-- The calls that an operation makes on a table. -/
def Op.calls (t : SymbolTable) : Op → List Call
  | .enter => [.enter]
  | .exit => [.exit]
  | .declare s => [.declare s]
  | .lookup name => [.lookup name]
  | .globals | .describe | .abandon _ => []
  | .within body => .enter :: (Op.callsAll t.enter body ++ [.exit])
  | .recover body => Op.callsAll t body

/-- The calls that operations make in turn on a table, up to one that fails. -/
def Op.callsAll (t : SymbolTable) : List Op → List Call
  | [] => []
  | op :: rest =>
    op.calls t ++ if (op.run t).2.2.isSome then [] else Op.callsAll (op.run t).1 rest

end

/-- What a call answers, if it asks for something. -/
def answer? (t : SymbolTable) : Call → Option Reply
  | .declare s => some (.declared (t.declare s).2.1 (t.declare s).2.2)
  | .lookup name => some (.found (t.lookup name))
  | .enter | .exit => none

/-- The answers to calls that are made in turn. -/
def answers (t : SymbolTable) : List Call → List Reply
  | [] => []
  | c :: rest => (t.answer? c).toList ++ answers (t.perform c) rest

/-- The answer of a declaration or a lookup. -/
def Entry.answer? (e : Entry) : Option Reply :=
  match e.reply with
  | .declared .. | .found .. => some e.reply
  | .done | .globals .. | .text .. => none

theorem answers_append (t : SymbolTable) (calls more : List Call) :
    answers t (calls ++ more) = answers t calls ++ answers (calls.foldl perform t) more := by
  induction calls generalizing t with
  | nil => rfl
  | cons c calls ih => rw [List.cons_append, answers, answers, ih, List.append_assoc]; rfl

/-- Carrying out operations on a table is making calls on it: the table is left as the calls leave
it, and the entries have their answers. -/
structure Makes (t : SymbolTable) (calls : List Call)
    (r : SymbolTable × List Entry × Option String) : Prop where
  table : r.1 = calls.foldl perform t
  answers : r.2.1.filterMap Entry.answer? = t.answers calls
  depth : ∀ e ∈ r.2.1, 1 ≤ e.depth

theorem one_le_depth (t : SymbolTable) : 1 ≤ t.depth := Nat.le_add_left 1 _

theorem Makes.of_entry {t t' : SymbolTable} {calls : List Call} {op : String} {reply : Reply}
    {failure reason : Option String} (htable : t' = calls.foldl perform t)
    (hanswers : (Entry.answer? ⟨op, reply, t'.depth, failure⟩).toList = t.answers calls) :
    Makes t calls (t', [⟨op, reply, t'.depth, failure⟩], reason) := by
  refine ⟨htable, ?_, ?_⟩
  · rw [← hanswers, List.filterMap_cons]
    cases Entry.answer? ⟨op, reply, t'.depth, failure⟩ <;> rfl
  · rintro e he
    rw [List.mem_singleton.1 he]
    exact t'.one_le_depth

theorem Makes.append {t : SymbolTable} {calls more : List Call}
    {r r' : SymbolTable × List Entry × Option String} (h : Makes t calls r) (h' : Makes r.1 more r') :
    Makes t (calls ++ more) (r'.1, r.2.1 ++ r'.2.1, r'.2.2) := by
  refine ⟨?_, ?_, List.forall_mem_append.2 ⟨h.depth, h'.depth⟩⟩
  · rw [List.foldl_append, ← h.table, h'.table]
  · rw [List.filterMap_append, h.answers, h'.answers, answers_append, ← h.table]

theorem Makes.within {t : SymbolTable} {calls : List Call}
    {r : SymbolTable × List Entry × Option String} {failure reason : Option String}
    (h : Makes t.enter calls r) :
    Makes t (.enter :: (calls ++ [.exit]))
      (r.1.close.1, ⟨"with", .done, r.1.close.1.depth, failure⟩ :: r.2.1, reason) := by
  refine ⟨?_, ?_, List.forall_mem_cons.2 ⟨one_le_depth _, h.depth⟩⟩
  · rw [List.foldl_cons, List.foldl_append, h.table]
    rfl
  · have hentries : (Entry.mk "with" .done r.1.close.1.depth failure :: r.2.1).filterMap
        Entry.answer? = r.2.1.filterMap Entry.answer? := rfl
    rw [hentries, h.answers, SymbolTable.answers, answers_append]
    exact (List.append_nil _).symm

theorem Makes.recover {t : SymbolTable} {calls : List Call}
    {r : SymbolTable × List Entry × Option String} {reason : Option String} (h : Makes t calls r) :
    Makes t calls (r.1, r.2.1, reason) :=
  ⟨h.table, h.answers, h.depth⟩

mutual

theorem Op.makes_run (t : SymbolTable) : ∀ op : Op, Makes t (op.calls t) (op.run t)
  | .enter => .of_entry rfl rfl
  | .exit => .of_entry rfl rfl
  | .declare _ => .of_entry rfl rfl
  | .lookup _ => .of_entry rfl rfl
  | .globals => .of_entry rfl rfl
  | .describe => .of_entry rfl rfl
  | .abandon _ => .of_entry rfl rfl
  | .within body => (Op.makes_runAll t.enter body).within
  | .recover body => (Op.makes_runAll t body).recover

theorem Op.makes_runAll (t : SymbolTable) : ∀ ops : List Op,
    Makes t (Op.callsAll t ops) (Op.runAll t ops)
  | [] => ⟨rfl, rfl, List.forall_mem_nil _⟩
  | op :: rest => by
    have hop := Op.makes_run t op
    have hrest := Op.makes_runAll (op.run t).1 rest
    rw [Op.callsAll, Op.runAll]
    rcases hrun : op.run t with ⟨t', entries, _ | reason⟩
    · rw [hrun] at hop hrest
      exact hop.append hrest
    · rw [hrun] at hop
      simpa using hop

end

/-- A symbol table scopes lexically, whatever calls are made on it.  After any calls it answers as
lexical scoping says; calls that close the scopes they open, between an `enter` and an `exit`, leave
it as it was.  Operations make calls up to the first one that fails, in whatever scopes and
recoveries that is.  So operations in a scope of their own that have closed the scopes they opened
by the time they end or fail leave the table as it was, and a failure of theirs goes on outside. -/
theorem session_lexical :
    (∀ h : History, h.Lexical ∧ 1 ≤ h.table.depth) ∧
    (∀ (h : History) (body : List Call), Balanced body →
      History.table (.exit :: (body.reverse ++ .enter :: h)) = h.table) ∧
    (∀ (h : History) (ops : List Op), let r := Op.runAll h.table ops
      r.1 = History.table ((Op.callsAll h.table ops).reverse ++ h) ∧
        r.2.1.filterMap Entry.answer? = answers h.table (Op.callsAll h.table ops) ∧
        ∀ e ∈ r.2.1, 1 ≤ e.depth) ∧
    ∀ (t : SymbolTable) (body : List Op), Balanced (Op.callsAll t.enter body) →
      (Op.run t (.within body)).1 = t ∧
        (Op.run t (.within body)).2.2 = (Op.runAll t.enter body).2.2 := by
  refine ⟨fun h => ⟨h.lexical, h.table.one_le_depth⟩, fun h body hbody => ?_, fun h ops => ?_,
    fun t body hbody => ?_⟩
  · show (History.table (body.reverse ++ .enter :: h)).close.1 = _
    rw [History.table_reverse_append]
    exact congrArg Prod.fst (close_balanced hbody h.table)
  · obtain ⟨htable, hanswers, hdepth⟩ := Op.makes_runAll h.table ops
    exact ⟨htable.trans (History.table_reverse_append _ _).symm, hanswers, hdepth⟩
  · have hclose := close_balanced hbody t
    rw [← (Op.makes_runAll t.enter body).table] at hclose
    rw [Op.run]
    generalize Op.runAll t.enter body = r at hclose ⊢
    obtain ⟨table, entries, abandoned⟩ := r
    simp only at hclose
    simp only [hclose, Option.none_or, and_self]

/-- A second declaration in one scope, a symbol that hides an outer one, and a failure that goes
through three scopes, of which each is closed; a recovery in the second one lets that go on.  Where a
failure passes over an `exit`, the table is left one scope deeper. -/
theorem session_lexical_abandoned :
    let x : Symbol := ⟨"x", .var, 1, 5⟩
    let inner : Symbol := ⟨"x", .parameter, 2, 3⟩
    let h : History := [.declare x]
    let body : List Op := [.declare inner, .within [.enter, .exit, .within [.abandon "a"], .lookup "x"],
      .exit]
    let recovered : List Op := [.declare inner, .within [.recover [.within [.abandon "a"]], .lookup "x"]]
    let skipping : List Op := [.enter, .within [.abandon "a"], .exit]
    Op.callsAll h.table.enter body = [.declare inner, .enter, .enter, .exit, .enter, .exit, .exit] ∧
      (Op.run h.table (.within body)).1 = h.table ∧
      (Op.run h.table (.within body)).2.2 = some "a" ∧
      Op.callsAll h.table.enter recovered =
        [.declare inner, .enter, .enter, .exit, .lookup "x", .exit] ∧
      (Op.run h.table (.within recovered)).1 = h.table ∧
      (Op.run h.table (.within recovered)).2.2 = none ∧
      (Op.run h.table (.within skipping)).1 = h.table.enter ∧
      h.table.declare inner = (h.table, x, false) ∧
      History.openScopes (.declare inner :: .enter :: h) = [1, 0] ∧
      (History.table (.declare inner :: .enter :: h)).lookup "x" = some inner := by
  intro x inner h body recovered skipping
  obtain ⟨hhistory, -, -, hwithin⟩ := session_lexical
  obtain ⟨htable, hfailure⟩ := hwithin h.table body (by decide)
  obtain ⟨htable', hfailure'⟩ := hwithin h.table recovered (by decide)
  refine ⟨by decide, htable, hfailure.trans (by decide), by decide, htable', hfailure'.trans (by decide),
    by decide, (hhistory h).1.taken inner x ?_ rfl, rfl,
    (hhistory _).1.visible "x" inner ⟨[], 1, [0], rfl, ?_, rfl, List.forall_mem_nil _⟩⟩
  · exact ⟨[], List.suffix_refl _, by decide, rfl⟩
  · exact ⟨.enter :: h, List.suffix_refl _, by decide, rfl⟩

end Easel.SymbolTable
