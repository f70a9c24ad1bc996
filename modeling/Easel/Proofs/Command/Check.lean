import Easel.Proofs.Command.Session
import Easel.Proofs.Import.Files
import Easel.Proofs.Workspace.Exchange

/-!
# Checking files

A check reads the files below each directory through a workspace, which holds only what the host
holds (`Faithful`); so it finds what it would find without one (`Acts`).  What it finds can be said
in advance (`findings`): for every input that resolves, the files of its graph that were not seen
before, and for every other input why it does not resolve.  It says all of it in this order, in
the words of `Finding.out` and `Finding.err`, and succeeds if nothing is wrong with any of it
(`run_checkAll`): `check_exact`.
-/

namespace Easel.Command

open Workspace (run_bind write_ok_cases lookup_store_self lookup_store_of_ne)
open Import (sourceAt sourceBelow Resolvable Readable Reaches Sorted resolved)

variable {α β : Type} {h : Host} {root name file input : RawText} {cache : Workspace}
  {seen files entries names : List RawText} {c : Console} {outline : Bool} {d : Desktop}

/-! ## Sources -/

/-- The workspace holds only what the host has below a directory. -/
def Faithful (h : Host) (root : RawText) (cache : Workspace) : Prop :=
  ∀ name source, cache.readText name = .ok source → sourceBelow h root name = .ok source

theorem readText_eq_ok_iff {source : String} :
    cache.readText name = .ok source ↔
      validPath name = true ∧
        ∃ e, cache.files.lookup name = some e ∧ Text.decode e.data = source := by
  rw [Workspace.readText, Workspace.read]
  cases hentry : cache.entry name with
  | error e =>
    refine ⟨fun hread => (by cases hread), fun ⟨hname, e', hlookup, _⟩ => ?_⟩
    rw [Workspace.entry_eq_ok_iff.2 ⟨hname, hlookup⟩] at hentry
    cases hentry
  | ok e =>
    obtain ⟨hname, hlookup⟩ := Workspace.entry_eq_ok_iff.1 hentry
    simp [hname, hlookup, Except.map]

theorem faithful_empty : Faithful h root {} := by
  intro name source hread
  obtain ⟨-, e, hlookup, -⟩ := readText_eq_ok_iff.1 hread
  cases hlookup

theorem Faithful.keepSource (hcache : Faithful h root cache) {data : ByteArray}
    (hread : h.readFile (Path.join root name) = .ok data) :
    Faithful h root (keepSource name data cache) := by
  unfold Command.keepSource
  cases hwrite : cache.write name data with
  | error e => exact hcache
  | ok cache' =>
    obtain ⟨-, -, ⟨-, rfl⟩ | ⟨-, rfl⟩⟩ := write_ok_cases hwrite
    · exact hcache
    · intro other source hother
      obtain ⟨hvalid, e, hlookup, hsource⟩ := readText_eq_ok_iff.1 hother
      by_cases hname : other = name
      · subst hname
        obtain rfl := Option.some.inj ((lookup_store_self _).symm.trans hlookup)
        rw [sourceBelow, sourceAt, hread, ← hsource]
        rfl
      · have hlookup' := (lookup_store_of_ne hname _).symm.trans hlookup
        exact hcache other source (readText_eq_ok_iff.2 ⟨hvalid, e, hlookup', hsource⟩)

/-! ## Steps -/

/-- A step that reads through a faithful workspace has a result and an effect on the terminal, and
leaves the host as it is and the workspace faithful. -/
def Acts (h : Host) (root : RawText) (x : StateT Workspace (StateM Desktop) α) (r : α)
    (f : Desktop → Desktop) : Prop :=
  ∀ cache d, Faithful h root cache → d.host = h →
    ∃ cache', (x.run cache).run d = ((r, cache'), f d) ∧ Faithful h root cache' ∧ (f d).host = h

theorem Acts.pure (r : α) : Acts h root (pure r) r id :=
  fun cache _ hcache hd => ⟨cache, rfl, hcache, hd⟩

theorem Acts.bind {x : StateT Workspace (StateM Desktop) α} {r : α} {f g : Desktop → Desktop}
    {y : α → StateT Workspace (StateM Desktop) β} {r' : β} (hx : Acts h root x r f)
    (hy : Acts h root (y r) r' g) : Acts h root (x >>= y) r' (g ∘ f) := by
  intro cache d hcache hd
  obtain ⟨cache₁, hrun, hcache₁, hd₁⟩ := hx cache d hcache hd
  obtain ⟨cache₂, hrun', hcache₂, hd₂⟩ := hy cache₁ (f d) hcache₁ hd₁
  refine ⟨cache₂, ?_, hcache₂, hd₂⟩
  rw [StateT.run_bind, run_bind, hrun]
  exact hrun'

/-- A first step that says nothing. -/
theorem Acts.silent_bind {x : StateT Workspace (StateM Desktop) α} {r : α} {g : Desktop → Desktop}
    {y : α → StateT Workspace (StateM Desktop) β} {r' : β} (hx : Acts h root x r id)
    (hy : Acts h root (y r) r' g) : Acts h root (x >>= y) r' g := hx.bind hy

/-- A second step that says nothing. -/
theorem Acts.bind_silent {x : StateT Workspace (StateM Desktop) α} {r : α} {f : Desktop → Desktop}
    {y : α → StateT Workspace (StateM Desktop) β} {r' : β} (hx : Acts h root x r f)
    (hy : Acts h root (y r) r' id) : Acts h root (x >>= y) r' f := hx.bind hy

/-- A step that reads nothing. -/
theorem Acts.lift {x : StateM Desktop α} {r : α} {f : Desktop → Desktop}
    (hx : ∀ d, x.run d = (r, f d)) (hf : ∀ d, (f d).host = d.host) :
    Acts h root (liftM x) r f := by
  intro cache d hcache hd
  have hrun : ((liftM x : StateT Workspace (StateM Desktop) α).run cache).run d =
      (((x.run d).1, cache), (x.run d).2) := rfl
  exact ⟨cache, hrun.trans (by rw [hx]), hcache, (hf d).trans hd⟩

theorem acts_readSource : Acts h root (readSource root name) (sourceBelow h root name) id := by
  intro cache d hcache hd
  cases hread : cache.readText name with
  | ok source =>
    refine ⟨cache, ?_, hcache, hd⟩
    rw [hcache name source hread]
    simp only [readSource, StateT.run_bind, StateT.run_get, pure_bind, hread]
    rfl
  | error e =>
    have hlift : ((liftM (HostAccess.readFile (Path.join root name) : StateM Desktop _) :
        StateT Workspace (StateM Desktop) _).run cache).run d =
          ((h.readFile (Path.join root name), cache), d) := by
      rw [← hd]
      rfl
    simp only [readSource, StateT.run_bind, StateT.run_get, pure_bind, hread]
    rw [hlift, sourceBelow, sourceAt]
    cases hfile : h.readFile (Path.join root name) with
    | error e => exact ⟨cache, rfl, hcache, hd⟩
    | ok data => exact ⟨keepSource name data cache, rfl, hcache.keepSource hfile, hd⟩

theorem acts_visitAll
    {visit : RawText → Import.Progress → Import.Progress × Option (Import.Error HostError)}
    {reader : RawText → Import.Progress →
      StateT Workspace (StateM Desktop) (Import.Progress × Option (Import.Error HostError))}
    (hvisit : ∀ name s, Acts h root (reader name s) (visit name s) id) (names : List RawText)
    (s : Import.Progress) :
    Acts h root (Import.visitAll reader names s) (Import.searchAll visit names s) id := by
  induction names generalizing s with
  | nil => exact .pure _
  | cons name rest ih =>
    rw [Import.visitAll, Import.searchAll_cons]
    refine (hvisit name s).silent_bind ?_
    rcases visit name s with ⟨s', _ | e⟩
    · exact ih s'
    · exact .pure _

theorem acts_visit (n : Nat) (chain : List RawText) (name : RawText) (s : Import.Progress) :
    Acts h root (Import.visit (readSource root) n chain name s)
      (Import.search (sourceBelow h root) n chain name s) id := by
  induction n generalizing chain name s with
  | zero => exact .pure _
  | succ n ih =>
    by_cases horder : name ∈ s.order
    · rw [Import.search_of_mem_order horder, Import.visit_of_mem_order horder]
      exact .pure _
    by_cases hmem : name ∈ chain
    · rw [Import.search_of_mem_chain horder hmem, Import.visit_of_mem_chain horder hmem]
      exact .pure _
    rw [Import.visit_of_fresh horder hmem]
    refine acts_readSource.silent_bind ?_
    cases hread : sourceBelow h root name with
    | error cause =>
      rw [Import.search_of_error horder hmem hread]
      exact .pure _
    | ok source =>
      rw [Import.search_of_ok horder hmem hread]
      refine (acts_visitAll (ih (chain ++ [name])) (Import.importsOf name source)
        { s with reads := s.reads ++ [name] }).silent_bind ?_
      rcases Import.searchAll (Import.search (sourceBelow h root) n (chain ++ [name]))
        (Import.importsOf name source) { s with reads := s.reads ++ [name] } with ⟨s', _ | e⟩ <;>
      exact .pure _

theorem acts_resolve (h : Host) (input : RawText) :
    ∃ reads, Acts h (Path.parent input)
      (Import.resolve importLimit (readSource (Path.parent input)) (Path.base input))
      (resolved h input, reads) id := by
  have hvisit : Acts h (Path.parent input) _ _ id :=
    acts_visit importLimit [] (Path.clean (Path.base input)) {}
  rw [Import.resolved_eq]
  rcases hsearch : Import.search (sourceBelow h (Path.parent input)) importLimit []
    (Path.clean (Path.base input)) {} with ⟨s, _ | e⟩ <;>
  · rw [hsearch] at hvisit
    refine ⟨s.reads, ?_⟩
    rw [Import.resolve]
    exact hvisit.silent_bind (.pure _)

/-! ## Findings -/

/-- A line of the log, if everything is logged. -/
def Console.logged (c : Console) (text : String) : String :=
  if c.verbose then
    paint c.coloredLog "90" c.time ++ " " ++ paint c.coloredLog "33" "DBG" ++ " " ++ text ++ "\n"
  else ""

/-- What a check finds: a file with its source, or that an input does not resolve. -/
inductive Finding where
  | checked (file : RawText) (source : String)
  | unresolved (input : RawText) (e : Import.Error HostError)

namespace Finding

/-- Nothing is wrong. -/
def isFine : Finding → Bool
  | checked _ source => (check source).isEmpty
  | unresolved _ _ => false

/-- The file that was checked. -/
def file? : Finding → Option RawText
  | checked file _ => some file
  | unresolved _ _ => none

/-- What the first stream shows: an outline, if one is asked for, and that a file is fine. -/
def out (c : Console) (outline : Bool) : Finding → String
  | checked file source =>
    (if outline then c.relative file ++ ":\n" ++ (parse (Token.lex source)).1.outline.print ++ "\n"
      else "") ++
    if check source = [] then paint c.colored "32;1" "✓ " ++ c.relative file ++ " ok\n" else ""
  | unresolved _ _ => ""

/-- A diagnostic of a file: where and what, and the source line if there is one. -/
def diagnostic (c : Console) (file : RawText) (d : Diagnostic) : String :=
  paint c.colored "1"
    (c.relative file ++ ":" ++ toString d.line ++ ":" ++ toString d.column ++ ": ") ++
  paint c.colored "31;1" "error: " ++ d.describe ++ "\n" ++
  if d.snippet = "" then "" else paint c.colored "2" ("    | " ++ d.snippet ++ "\n")

/-- What the second stream shows: every diagnostic of a file and how many there are; that a file was
checked, if everything is logged; why an input does not resolve. -/
def err (c : Console) : Finding → String
  | checked file source =>
    let ds := check source
    if ds = [] then
      c.logged ("checked " ++ paint c.coloredLog "36" "file=" ++ logText (c.relative file))
    else
      String.join (ds.map (diagnostic c file)) ++
      paint c.colored "31;1" ("✗ " ++ c.relative file ++ ": " ++ toString ds.length ++
        (if ds.length = 1 then " error\n" else " errors\n"))
  | unresolved input e =>
    paint c.colored "31;1" "error: " ++ c.relative input ++ ": " ++ e.message HostError.message ++
      "\n"

end Finding

/-- A desktop that shows findings in turn. -/
def sayAll (c : Console) (outline : Bool) (fs : List Finding) (d : Desktop) : Desktop :=
  { d with out := d.out ++ String.join (fs.map (Finding.out c outline)),
           err := d.err ++ String.join (fs.map (Finding.err c)) }

theorem sayAll_nil (c : Console) (outline : Bool) : sayAll c outline [] = id := by
  funext d
  rw [sayAll, List.map_nil, List.map_nil, String.join_nil, String.append_empty, String.append_empty]
  rfl

theorem sayAll_append (c : Console) (outline : Bool) (fs gs : List Finding) :
    sayAll c outline (fs ++ gs) = sayAll c outline gs ∘ sayAll c outline fs := by
  funext d
  simp only [sayAll, Function.comp, List.map_append, String.join_append, String.append_assoc]

theorem sayAll_singleton (c : Console) (outline : Bool) (f : Finding) (d : Desktop) :
    sayAll c outline [f] d =
      { d with out := d.out ++ f.out c outline, err := d.err ++ f.err c } := by
  simp only [sayAll, List.map_cons, List.map_nil, String.join_cons, String.join_nil,
    String.append_empty]

/-! ## Lines -/

theorem plural_error (n : Nat) :
    plural n "error" ++ "\n" = toString n ++ if n = 1 then " error\n" else " errors\n" := by
  unfold plural
  split
  next hone =>
    rw [hone]
    decide
  next =>
    simp only [String.append_assoc]
    exact congrArg (toString n ++ ·) (by decide)

theorem diagnosticText_eq (c : Console) (file : RawText) :
    c.diagnosticText file = Finding.diagnostic c file := by
  funext d
  unfold Console.diagnosticText Finding.diagnostic
  simp only [String.isEmpty_iff]
  rfl

theorem run_rejectFile (c : Console) (file : RawText) {source : String} (hwrong : check source ≠ [])
    (d : Desktop) :
    (c.rejectFile file (check source) : StateM Desktop Unit).run d =
      ((), { d with err := d.err ++ (Finding.checked file source).err c }) := by
  have hrun : (c.rejectFile file (check source) : StateM Desktop Unit).run d = ((), { d with
      err := d.err ++ (String.join ((check source).map (c.diagnosticText file)) ++
        paint c.colored "31;1" ("✗ " ++ c.relative file ++ ": " ++
          plural (check source).length "error" ++ "\n")) }) := rfl
  rw [hrun, diagnosticText_eq, Finding.err, if_neg hwrong]
  simp only [String.append_assoc, plural_error]

theorem run_debug (c : Console) (message : String) (fields : List (String × String)) (d : Desktop) :
    (c.log { level := .debug, message, fields } : StateM Desktop Unit).run d = ((), { d with
      err := d.err ++ c.logged (String.intercalate " " (message ::
        fields.map fun f => paint c.coloredLog "36" (f.1 ++ "=") ++ logText f.2)) }) := by
  have hline : LogLine.print c.coloredLog c.time { level := .debug, message, fields } =
      String.intercalate " " (paint c.coloredLog "90" c.time :: paint c.coloredLog "33" "DBG" ::
        message :: fields.map fun f => paint c.coloredLog "36" (f.1 ++ "=") ++ logText f.2) ++
      "\n" := rfl
  rw [run_log, hline, String.intercalate_cons_cons, String.intercalate_cons_cons, Console.logged]
  simp only [String.append_assoc, show (LogLevel.debug == .warn) = false from rfl, Bool.or_false]

theorem run_reportSource (c : Console) (outline : Bool) (file : RawText) (source : String)
    (d : Desktop) :
    (reportSource c outline file source : StateM Desktop Bool).run d =
      ((Finding.checked file source).isFine, sayAll c outline [.checked file source] d) := by
  have hstatus (d : Desktop) : (c.status (c.relative file ++ " ok") : StateM Desktop Unit).run d =
      ((), { d with out := d.out ++
        (paint c.colored "32;1" "✓ " ++ (c.relative file ++ " ok") ++ "\n") }) := rfl
  have hplain (d : Desktop) : (reportSource c false file source : StateM Desktop Bool).run d =
      ((Finding.checked file source).isFine, sayAll c false [.checked file source] d) := by
    rw [reportSource, if_neg Bool.false_ne_true, sayAll_singleton]
    split
    next hfine =>
      rw [run_bind, run_debug, run_bind, hstatus]
      simp [Finding.isFine, Finding.out, Finding.err, hfine, String.append_assoc]
      rfl
    next hwrong =>
      have hempty : (check source).isEmpty = false := List.isEmpty_eq_false_iff.2 hwrong
      rw [run_bind, run_rejectFile c file hwrong, Finding.isFine, hempty, Finding.out,
        if_neg hwrong]
      simp
      rfl
  cases outline with
  | false => exact hplain d
  | true =>
    have houtline : (reportSource c true file source : StateM Desktop Bool).run d =
        (reportSource c false file source : StateM Desktop Bool).run { d with out := d.out ++
          (c.relative file ++ ":\n" ++ (parse (Token.lex source)).1.outline.print ++ "\n") } := rfl
    rw [houtline, hplain]
    simp [sayAll_singleton, Finding.out, String.append_assoc]

theorem run_complain (c : Console) (outline : Bool) (input : RawText) (e : Import.Error HostError)
    (d : Desktop) :
    (c.complain (c.relative input ++ ": " ++ e.message HostError.message) :
      StateM Desktop Unit).run d = ((), sayAll c outline [.unresolved input e] d) := by
  have hrun (text : String) : (c.complain text : StateM Desktop Unit).run d =
      ((), { d with err := d.err ++ (paint c.colored "31;1" "error: " ++ text ++ "\n") }) := rfl
  rw [hrun, sayAll_singleton, Finding.out, Finding.err, String.append_empty]
  simp only [String.append_assoc]

theorem noteConfig_eq {config : Option Config}
    (hconfig : configAt d.host c.directory = .ok config) :
    noteConfig c d =
      { d with err := d.err ++ if config = none then c.logged "no project config" else "" } := by
  unfold configAt at hconfig
  unfold noteConfig
  cases hread : d.host.readFile (Path.join c.directory Config.fileName) with
  | error e =>
    rw [hread] at hconfig
    dsimp only at hconfig ⊢
    by_cases hmissing : e.cause = .missing
    · rw [if_pos hmissing] at hconfig ⊢
      rw [← Except.ok.inj hconfig, if_pos rfl, run_debug]
      rfl
    · rw [if_neg hmissing] at hconfig
      cases hconfig
  | ok data =>
    rw [hread] at hconfig
    dsimp only at hconfig ⊢
    cases hparse : Config.parse data with
    | error e =>
      rw [hparse] at hconfig
      cases hconfig
    | ok found =>
      rw [hparse] at hconfig
      rw [← Except.ok.inj hconfig, if_neg nofun, String.append_empty]

/-- The files of a list that have not been seen, each once. -/
def unseen : List RawText → List RawText → List RawText
  | [], _ => []
  | file :: rest, seen =>
    if seen.contains file then unseen rest seen else file :: unseen rest (file :: seen)

/-- A file of a host with its source. -/
def findingAt (h : Host) (file : RawText) : Finding :=
  .checked file ((sourceAt h file).toOption.getD "")

/-- The files that an input adds to those seen. -/
def newFiles (h : Host) (seen : List RawText) (input : RawText) : List RawText :=
  match resolved h input with
  | .ok names => unseen (names.map (Path.join (Path.parent input))) seen
  | .error _ => []

/-- What a check finds for an input after the files seen. -/
def findingsFor (h : Host) (seen : List RawText) (input : RawText) : List Finding :=
  match resolved h input with
  | .ok _ => (newFiles h seen input).map (findingAt h)
  | .error e => [.unresolved input e]

/-- What a check finds for inputs in turn. -/
def findings (h : Host) : List RawText → List RawText → List Finding
  | [], _ => []
  | input :: rest, seen =>
    findingsFor h seen input ++ findings h rest ((newFiles h seen input).reverse ++ seen)

/-- The files that were checked. -/
def checkedFiles (fs : List Finding) : List RawText := fs.filterMap Finding.file?

theorem acts_checkFile (hreadable : Readable (sourceBelow h root) name) :
    Acts h root (checkFile c outline root name) (findingAt h (Path.join root name)).isFine
      (sayAll c outline [findingAt h (Path.join root name)]) := by
  obtain ⟨source, hsource⟩ := hreadable
  have hfinding : findingAt h (Path.join root name) = .checked (Path.join root name) source := by
    have hfile : sourceAt h (Path.join root name) = .ok source := hsource
    rw [findingAt, hfile]
    rfl
  rw [hfinding, checkFile]
  refine acts_readSource.silent_bind ?_
  rw [hsource]
  exact .lift (run_reportSource c outline _ source) fun _ => rfl

theorem acts_checkNew (hreadable : ∀ name ∈ names, Readable (sourceBelow h root) name) :
    Acts h root (checkNew c outline root names seen)
      ((unseen (names.map (Path.join root)) seen).reverse ++ seen,
        ((unseen (names.map (Path.join root)) seen).map (findingAt h)).all Finding.isFine)
      (sayAll c outline ((unseen (names.map (Path.join root)) seen).map (findingAt h))) := by
  induction names generalizing seen with
  | nil =>
    rw [List.map_nil, unseen, List.map_nil, sayAll_nil]
    exact .pure _
  | cons name rest ih =>
    obtain ⟨hname, hrest⟩ := List.forall_mem_cons.1 hreadable
    rw [checkNew, List.map_cons, unseen]
    by_cases hseen : seen.contains (Path.join root name) = true
    · rw [if_pos hseen, if_pos hseen]
      exact ih hrest
    · rw [if_neg hseen, if_neg hseen]
      have hsplit : sayAll c outline (List.map (findingAt h) (Path.join root name ::
            unseen (rest.map (Path.join root)) (Path.join root name :: seen))) =
          sayAll c outline (List.map (findingAt h)
            (unseen (rest.map (Path.join root)) (Path.join root name :: seen))) ∘
          sayAll c outline [findingAt h (Path.join root name)] := sayAll_append c outline [_] _
      rw [hsplit, List.reverse_cons, List.append_assoc]
      refine (acts_checkFile hname).bind ?_
      refine (ih hrest).bind_silent ?_
      exact .pure _

/-! ## Inputs -/

/-- The path is absolute and clean. -/
structure IsPlace (file : RawText) : Prop where
  absolute : Path.isAbsolute file = true
  clean : Path.clean file = file

/-- The workspaces of a check hold only what the host holds. -/
def Checked.Holds (h : Host) (s : Checked) : Prop := ∀ root, Faithful h root (s.below root)

theorem holds_start : Checked.Holds h {} := fun _ => faithful_empty

theorem Checked.Holds.keep {s : Checked} (hs : s.Holds h) (hcache : Faithful h root cache) :
    (s.keep root cache).Holds h := by
  intro other
  rw [Checked.below, Checked.keep]
  by_cases hother : other = root
  · rw [hother, List.lookup_cons_self]
    exact hcache
  · rw [lookup_put_of_ne hother]
    exact hs other

theorem readable_of_resolved (htree : h.IsTree) (hinput : IsPlace input)
    (hnames : resolved h input = .ok names) :
    ∀ name ∈ names, Readable (sourceBelow h (Path.parent input)) name := by
  have hcases := Import.resolved_cases htree hinput.absolute hinput.clean
  rw [hnames] at hcases
  obtain ⟨hresolvable, hfiles, -⟩ := hcases
  intro name hname
  exact hresolvable.1 _ ((hfiles _).1 (List.mem_map_of_mem hname))

theorem run_checkInput (htree : h.IsTree) (hinput : IsPlace input) {s : Checked} (hs : s.Holds h)
    (hd : d.host = h) :
    ∃ s', (checkInput c outline input s : StateM Desktop _).run d =
        ((s', (findingsFor h s.files input).all Finding.isFine),
          sayAll c outline (findingsFor h s.files input) d) ∧
      s'.files = (newFiles h s.files input).reverse ++ s.files ∧ s'.Holds h := by
  obtain ⟨reads, hresolve⟩ := acts_resolve h input
  obtain ⟨cache, hrun, hcache, -⟩ := hresolve (s.below (Path.parent input)) d (hs _) hd
  rw [checkInput, run_bind, hrun, findingsFor, newFiles]
  cases hresolved : resolved h input with
  | error e =>
    dsimp only [id]
    rw [run_bind, run_complain c outline input e d]
    exact ⟨s.keep (Path.parent input) cache, rfl, rfl, hs.keep hcache⟩
  | ok names =>
    have hnew : Acts h (Path.parent input) (checkNew c outline _ names s.files) _ _ :=
      acts_checkNew (readable_of_resolved htree hinput hresolved)
    obtain ⟨cache', hrun', hcache', -⟩ := hnew cache d hcache hd
    dsimp only [id]
    rw [run_bind, hrun']
    exact ⟨_, rfl, rfl, Checked.Holds.keep hs hcache'⟩

theorem run_checkAll (htree : h.IsTree) (hentries : ∀ input ∈ entries, IsPlace input) {s : Checked}
    (hs : s.Holds h) (hd : d.host = h) :
    (checkAll c outline entries s : StateM Desktop _).run d =
      ((findings h entries s.files).all Finding.isFine,
        sayAll c outline (findings h entries s.files) d) := by
  induction entries generalizing s d with
  | nil =>
    rw [findings, sayAll_nil]
    rfl
  | cons input rest ih =>
    obtain ⟨hinput, hrest⟩ := List.forall_mem_cons.1 hentries
    obtain ⟨s', hrun, hfiles, hs'⟩ := run_checkInput htree hinput hs hd
    have hmore := ih (d := sayAll c outline (findingsFor h s.files input) d) hrest hs' hd
    rw [hfiles] at hmore
    rw [checkAll, run_bind, hrun, findings, List.all_append, sayAll_append]
    dsimp only
    rw [run_bind, hmore]
    rfl

/-! ## What is found -/

theorem mem_unseen : file ∈ unseen files seen ↔ file ∈ files ∧ file ∉ seen := by
  induction files generalizing seen with
  | nil => simp [unseen]
  | cons f rest ih =>
    rw [unseen]
    by_cases hf : f ∈ seen
    · rw [if_pos (List.contains_iff_mem.2 hf), ih]
      grind
    · rw [if_neg (mt List.contains_iff_mem.1 hf), List.mem_cons, ih]
      grind

theorem nodup_unseen (files seen : List RawText) : (unseen files seen).Nodup := by
  induction files generalizing seen with
  | nil => exact .nil
  | cons f rest ih =>
    rw [unseen]
    split
    · exact ih seen
    · exact List.nodup_cons.2 ⟨fun hmem => (mem_unseen.1 hmem).2 List.mem_cons_self, ih _⟩

/-- Files that stand after the files they import, those seen included, still do without those that
were seen. -/
theorem sorted_append_unseen {read : RawText → Except HostError String}
    (hseen : Sorted read seen.reverse)
    (hfiles : ∀ before a after, files = before ++ a :: after →
      ∀ b, Import.Imports read a b → b ∈ seen ∨ b ∈ before) :
    Sorted read (seen.reverse ++ unseen files seen) := by
  induction files generalizing seen with
  | nil => rwa [unseen, List.append_nil]
  | cons f rest ih =>
    rw [unseen]
    by_cases hf : f ∈ seen
    · rw [if_pos (List.contains_iff_mem.2 hf)]
      refine ih hseen fun before a after hsplit b hb => ?_
      have hmem := hfiles (f :: before) a after (by rw [hsplit]; rfl) b hb
      rw [List.mem_cons] at hmem
      rcases hmem with hmem | rfl | hmem
      · exact .inl hmem
      · exact .inl hf
      · exact .inr hmem
    · rw [if_neg (mt List.contains_iff_mem.1 hf)]
      have himports : ∀ b, Import.Imports read f b → b ∈ seen.reverse := fun b hb =>
        List.mem_reverse.2 ((hfiles [] f rest rfl b hb).resolve_right List.not_mem_nil)
      have hmore := ih (by rw [List.reverse_cons]; exact hseen.concat himports)
        fun before a after hsplit b hb => by
          have hmem := hfiles (f :: before) a after (by rw [hsplit]; rfl) b hb
          rw [List.mem_cons] at hmem ⊢
          tauto
      rwa [List.reverse_cons, List.append_assoc] at hmore

theorem mem_newFiles (htree : h.IsTree) (hinput : IsPlace input) :
    file ∈ newFiles h seen input ↔
      file ∉ seen ∧ Resolvable h input ∧ Reaches (sourceAt h) input file := by
  have hcases := Import.resolved_cases htree hinput.absolute hinput.clean
  rw [newFiles]
  cases hresolved : resolved h input with
  | error e =>
    rw [hresolved] at hcases
    simp [show ¬ Resolvable h input from hcases]
  | ok names =>
    rw [hresolved] at hcases
    obtain ⟨hresolvable, hfiles, -⟩ := hcases
    simp only [mem_unseen, hfiles, hresolvable, true_and]
    exact and_comm

theorem isPlace_of_mem_newFiles (hinput : IsPlace input) (hfile : file ∈ newFiles h seen input) :
    IsPlace file := by
  have hroot := (Path.isAbsolute_parent input).trans hinput.absolute
  rw [newFiles] at hfile
  cases hresolved : resolved h input with
  | error e =>
    rw [hresolved] at hfile
    cases hfile
  | ok names =>
    rw [hresolved] at hfile
    obtain ⟨name, -, rfl⟩ := List.mem_map.1 (mem_unseen.1 hfile).1
    exact ⟨Path.isAbsolute_join hroot name, Path.clean_join hroot name⟩

theorem sorted_append_newFiles (htree : h.IsTree) (hinput : IsPlace input)
    (hseen : Sorted (sourceAt h) seen.reverse) :
    Sorted (sourceAt h) (seen.reverse ++ newFiles h seen input) := by
  have hcases := Import.resolved_cases htree hinput.absolute hinput.clean
  rw [newFiles]
  cases hresolved : resolved h input with
  | error e => rwa [List.append_nil]
  | ok names =>
    rw [hresolved] at hcases
    obtain ⟨-, -, hsorted⟩ := hcases
    exact sorted_append_unseen hseen fun before a after hsplit b hb =>
      .inr (hsorted before a after hsplit b hb)

/-- The files that were seen in the order in which they were, if each stands after the files that it
imports. -/
structure Listed (h : Host) (seen : List RawText) : Prop where
  places : ∀ file ∈ seen, IsPlace file
  nodup : seen.Nodup
  sorted : Sorted (sourceAt h) seen

theorem listed_nil : Listed h (List.reverse []) := ⟨by simp, .nil, Import.sorted_nil⟩

theorem Listed.append_newFiles (hseen : Listed h seen.reverse) (htree : h.IsTree)
    (hinput : IsPlace input) : Listed h (seen.reverse ++ newFiles h seen input) where
  places file hfile := (List.mem_append.1 hfile).elim (hseen.places file)
    (isPlace_of_mem_newFiles hinput)
  nodup := by
    refine List.nodup_append'.2 ⟨hseen.nodup, ?_, ?_⟩
    · rw [newFiles]
      split
      · exact nodup_unseen _ _
      · exact .nil
    · intro file hfile hnew
      exact ((mem_newFiles htree hinput).1 hnew).1 (List.mem_reverse.1 hfile)
  sorted := sorted_append_newFiles htree hinput hseen.sorted

theorem checkedFiles_append (fs gs : List Finding) :
    checkedFiles (fs ++ gs) = checkedFiles fs ++ checkedFiles gs := List.filterMap_append

theorem checkedFiles_findingsFor (h : Host) (seen : List RawText) (input : RawText) :
    checkedFiles (findingsFor h seen input) = newFiles h seen input := by
  rw [findingsFor]
  cases hresolved : resolved h input with
  | error e =>
    rw [newFiles, hresolved]
    rfl
  | ok names =>
    rw [checkedFiles, List.filterMap_map]
    exact List.filterMap_some

/-- The files that a check reports for inputs, after those seen. -/
theorem listed_findings (htree : h.IsTree) (hentries : ∀ input ∈ entries, IsPlace input)
    (hseen : Listed h seen.reverse) :
    Listed h (seen.reverse ++ checkedFiles (findings h entries seen)) ∧
      ∀ file, file ∈ seen ∨ file ∈ checkedFiles (findings h entries seen) ↔
        file ∈ seen ∨ ∃ input ∈ entries, Resolvable h input ∧ Reaches (sourceAt h) input file := by
  induction entries generalizing seen with
  | nil => simpa [findings, checkedFiles] using hseen
  | cons input rest ih =>
    obtain ⟨hinput, hrest⟩ := List.forall_mem_cons.1 hentries
    have hreverse : ((newFiles h seen input).reverse ++ seen).reverse =
        seen.reverse ++ newFiles h seen input := by
      rw [List.reverse_append, List.reverse_reverse]
    obtain ⟨hlisted, hmem⟩ := ih hrest (hreverse ▸ hseen.append_newFiles htree hinput)
    rw [findings, checkedFiles_append, checkedFiles_findingsFor]
    refine ⟨?_, fun file => ?_⟩
    · rwa [hreverse, List.append_assoc] at hlisted
    · have hfile := hmem file
      simp only [List.mem_append, List.mem_reverse, mem_newFiles htree hinput] at hfile
      simp only [List.mem_append, mem_newFiles htree hinput, List.exists_mem_cons_iff]
      by_cases hold : file ∈ seen
      · simp [hold]
      · simpa only [hold, not_false_eq_true, true_and, or_false, false_or] using hfile

theorem eq_of_mem_findings {f : Finding} (hf : f ∈ findings h entries seen) :
    (∃ file, f = findingAt h file) ∨
      ∃ input ∈ entries, ∃ e, f = .unresolved input e ∧ resolved h input = .error e := by
  induction entries generalizing seen with
  | nil => cases hf
  | cons input rest ih =>
    rw [findings, List.mem_append] at hf
    rcases hf with hf | hf
    · rw [findingsFor] at hf
      cases hresolved : resolved h input with
      | error e =>
        rw [hresolved] at hf
        exact .inr ⟨input, List.mem_cons_self, e, List.mem_singleton.1 hf, hresolved⟩
      | ok names =>
        rw [hresolved] at hf
        obtain ⟨file, -, rfl⟩ := List.mem_map.1 hf
        exact .inl ⟨file, rfl⟩
    · refine (ih hf).imp id ?_
      rintro ⟨other, hother, he⟩
      exact ⟨other, List.mem_cons_of_mem _ hother, he⟩

theorem unresolved_mem_findings {e : Import.Error HostError} (hinput : input ∈ entries)
    (he : resolved h input = .error e) : .unresolved input e ∈ findings h entries seen := by
  induction entries generalizing seen with
  | nil => cases hinput
  | cons other rest ih =>
    rw [findings, List.mem_append]
    rcases List.mem_cons.1 hinput with rfl | hrest
    · rw [findingsFor, he]
      exact .inl (List.mem_singleton_self _)
    · exact .inr (ih hrest)

theorem mem_checkedFiles :
    file ∈ checkedFiles (findings h entries seen) ↔ findingAt h file ∈ findings h entries seen := by
  rw [checkedFiles, List.mem_filterMap]
  constructor
  · rintro ⟨f, hf, hfile⟩
    rcases eq_of_mem_findings hf with ⟨other, rfl⟩ | ⟨input, -, e, rfl, -⟩
    · obtain rfl : other = file := Option.some.inj hfile
      exact hf
    · cases hfile
  · exact fun hf => ⟨_, hf, rfl⟩

/-! ## The command -/

/-- The imports of an input resolve, and every file that it reaches is fine. -/
def Clean (h : Host) (input : RawText) : Prop :=
  Resolvable h input ∧
    ∀ file source, Reaches (sourceAt h) input file → sourceAt h file = .ok source →
      check source = []

theorem source_of_mem_checkedFiles (htree : h.IsTree) (hentries : ∀ input ∈ entries, IsPlace input)
    (hfile : file ∈ checkedFiles (findings h entries [])) :
    ∃ input ∈ entries, Resolvable h input ∧ Reaches (sourceAt h) input file ∧
      ∃ source, sourceAt h file = .ok source ∧ findingAt h file = .checked file source := by
  have hreached := ((listed_findings htree hentries listed_nil).2 file).1 (.inr hfile)
  obtain ⟨input, hinput, hresolvable, hreaches⟩ := hreached.resolve_left List.not_mem_nil
  obtain ⟨source, hsource⟩ := hresolvable.1 file hreaches
  refine ⟨input, hinput, hresolvable, hreaches, source, hsource, ?_⟩
  rw [findingAt, hsource]
  rfl

theorem all_isFine_iff (htree : h.IsTree) (hentries : ∀ input ∈ entries, IsPlace input) :
    (findings h entries []).all Finding.isFine = true ↔ ∀ input ∈ entries, Clean h input := by
  rw [List.all_eq_true]
  constructor
  · intro hfine input hinput
    have hcases := Import.resolved_cases htree (hentries input hinput).absolute
      (hentries input hinput).clean
    cases hresolved : resolved h input with
    | error e => cases hfine _ (unresolved_mem_findings hinput hresolved)
    | ok names =>
      rw [hresolved] at hcases
      refine ⟨hcases.1, fun file source hreaches hsource => ?_⟩
      have hfile := ((listed_findings htree hentries listed_nil).2 file).2
        (.inr ⟨input, hinput, hcases.1, hreaches⟩)
      have hfinding := hfine _ (mem_checkedFiles.1 (hfile.resolve_left List.not_mem_nil))
      rw [findingAt, hsource] at hfinding
      exact List.isEmpty_iff.1 hfinding
  · intro hclean f hf
    rcases eq_of_mem_findings hf with ⟨file, rfl⟩ | ⟨input, hinput, e, rfl, he⟩
    · obtain ⟨input, hinput, -, hreaches, source, hsource, hfinding⟩ :=
        source_of_mem_checkedFiles htree hentries (mem_checkedFiles.2 hf)
      rw [hfinding]
      exact List.isEmpty_iff.2 ((hclean input hinput).2 file source hreaches hsource)
    · have hcases := Import.resolved_cases htree (hentries input hinput).absolute
        (hentries input hinput).clean
      rw [he] at hcases
      exact absurd (hclean input hinput).1 hcases

theorem isPlace_path (hdirectory : Path.isAbsolute c.directory = true) (p : RawText) :
    IsPlace (c.path p) := by
  rw [Console.path, Path.resolve]
  split
  · exact ⟨(Path.isAbsolute_clean p).trans ‹_›, Path.clean_clean p⟩
  · exact ⟨(Path.isAbsolute_clean _).trans (Path.isAbsolute_join hdirectory p), Path.clean_clean _⟩

theorem isPlace_of_mem_inputs {a : Arguments} {config : Option Config}
    (hdirectory : Path.isAbsolute c.directory = true) (hfiles : inputs c a config = .ok files) :
    ∀ input ∈ files, IsPlace input := by
  rw [inputs.eq_def] at hfiles
  cases hargs : a.files with
  | nil =>
    rw [hargs] at hfiles
    cases config with
    | none => cases hfiles
    | some config =>
      rw [← Except.ok.inj hfiles]
      exact List.forall_mem_singleton.2 (isPlace_path hdirectory _)
  | cons file rest =>
    rw [hargs] at hfiles
    intro input hinput
    rw [← Except.ok.inj hfiles] at hinput
    obtain ⟨named, -, rfl⟩ := List.mem_map.1 hinput
    exact isPlace_path hdirectory named

theorem run_checkCommand {a : Arguments} {config : Option Config}
    (hdirectory : Path.isAbsolute c.directory = true) (htree : d.host.IsTree)
    (hconfig : configAt d.host c.directory = .ok config) (hfiles : inputs c a config = .ok files) :
    (checkCommand c a : Step Unit).run.run d =
      (if (findings d.host files []).all Finding.isFine then .ok () else .error .failed,
        sayAll c (a.switch "ast") (findings d.host files []) (noteConfig c d)) := by
  have hprepare : (prepareInputs c a : Step _).run.run d = (.ok files, noteConfig c d) := by
    rw [run_prepareInputs, hconfig]
    exact congrArg (·, _) hfiles
  rw [checkCommand, run_bind_ok hprepare, run_lift_bind, run_checkAll htree
    (isPlace_of_mem_inputs hdirectory hfiles) holds_start (host_noteConfig c d)]
  dsimp only
  cases (findings d.host files []).all Finding.isFine <;> rfl

end Easel.Command
