import Easel.Proofs.Command.Order
import Easel.Proofs.Command.Session

/-!
# What commands leave alone

A command that compiles writes the scripts of its jobs with their line maps, and where it shows a
page also the page.  Whatever happens, it touches no other file: each step touches only files at
some places (`TouchesOnly`), and the places of a command follow from its arguments and the
configuration of the project (`targets`).  So a source is safe unless it lies at one of these
places; then it is replaced by its own script: `session_keeps_files`.
-/

namespace Easel.Command

open Workspace

variable {α β : Type} {places : List Location} {h : Host} {d : Desktop} {c : Console} {j : Job}

/-! ## Steps -/

/-- A step leaves the host of a desktop a tree and every file as it is, except at some places, and
its result has a property. -/
def WithinAt (places : List Location) (d : Desktop) (x : StateM Desktop α) (P : α → Prop) : Prop :=
  d.host.IsTree → (x.run d).2.host.IsTree ∧
    (∀ l, l ∉ places → (x.run d).2.host.file? l = d.host.file? l) ∧ P (x.run d).1

/-- The same at every desktop. -/
def Within (places : List Location) (x : StateM Desktop α) (P : α → Prop) : Prop :=
  ∀ d, WithinAt places d x P

/-- The same with any result. -/
abbrev TouchesOnly (places : List Location) (x : StateM Desktop α) : Prop :=
  Within places x fun _ => True

/-- The property holds of the result of a step that does not end the command. -/
def Granted (P : α → Prop) (r : Except Stop α) : Prop := ∀ a, r = .ok a → P a

section Rules

variable {P : α → Prop} {Q : β → Prop} {x : StateM Desktop α}

theorem WithinAt.bind {f : α → StateM Desktop β} (hx : WithinAt places d x P)
    (hf : ∀ r, P r → Within places (f r) Q) : WithinAt places d (x >>= f) Q := by
  intro htree
  obtain ⟨htree₁, hothers₁, hresult⟩ := hx htree
  obtain ⟨htree₂, hothers₂, hresult₂⟩ := hf (x.run d).1 hresult (x.run d).2 htree₁
  rw [run_bind]
  exact ⟨htree₂, fun l hl => (hothers₂ l hl).trans (hothers₁ l hl), hresult₂⟩

theorem Within.bind {f : α → StateM Desktop β} (hx : Within places x P)
    (hf : ∀ r, P r → Within places (f r) Q) : Within places (x >>= f) Q :=
  fun d => (hx d).bind hf

theorem TouchesOnly.bind {f : α → StateM Desktop β} (hx : TouchesOnly places x)
    (hf : ∀ r, Within places (f r) Q) : Within places (x >>= f) Q :=
  Within.bind hx fun r _ => hf r

theorem Within.pure {r : α} (hr : P r) : Within places (pure r : StateM Desktop α) P :=
  fun _ htree => ⟨htree, fun _ _ => rfl, hr⟩

/-- A step that leaves the host as it is. -/
theorem touchesOnly_of_host (hx : ∀ d, (x.run d).2.host = d.host) : TouchesOnly places x := by
  intro d htree
  rw [hx d]
  exact ⟨htree, fun _ _ => rfl, trivial⟩

/-- Steps of which the first may end the command. -/
theorem WithinAt.bind_run {y : Step α} {f : α → Step β} (hy : WithinAt places d y.run (Granted P))
    (hf : ∀ r, P r → Within places (f r).run (Granted Q)) :
    WithinAt places d (y >>= f).run (Granted Q) := by
  rw [ExceptT.run_bind]
  refine hy.bind fun r hr => ?_
  cases r with
  | error e => exact .pure fun a ha => (by cases ha)
  | ok r => exact hf r (hr r rfl)

/-- Steps of which the first cannot end the command. -/
theorem Within.bind_lift {f : α → Step β} (hx : Within places x P)
    (hf : ∀ r, P r → Within places (f r).run (Granted Q)) :
    Within places ((liftM x : Step α) >>= f).run (Granted Q) := hx.bind hf

end Rules

theorem touchesOnly_log (c : Console) (l : LogLine) :
    TouchesOnly places (c.log l : StateM Desktop Unit) :=
  touchesOnly_of_host (host_log c l)

theorem touchesOnly_report (j : Job) (c : Console) (outcome : Outcome) :
    TouchesOnly places (j.report c outcome : StateM Desktop Bool) := by
  refine touchesOnly_of_host fun d => ?_
  cases outcome <;> rfl

theorem touchesOnly_readFile (path : RawText) :
    TouchesOnly places (HostAccess.readFile path : StateM Desktop _) :=
  touchesOnly_of_host fun _ => rfl

/-! ## Builds -/

theorem run_onHost (x : StateM Host α) (d : Desktop) :
    (Desktop.onHost x).run d = ((x.run d.host).1, { d with host := (x.run d.host).2 }) := rfl

/-- The places at which a job writes. -/
def Job.targets (j : Job) : List Location := [locate j.output, locate (j.output ++ ".map")]

theorem writeBuild_others {output : RawText} (houtput : Path.NamesFile output) (b : Build)
    (htree : h.IsTree) :
    let r := (writeBuild output b : StateM Host _).run h
    r.2.IsTree ∧ ∀ l, l ≠ locate output → l ≠ locate (output ++ ".map") →
      r.2.file? l = h.file? l := by
  intro r
  obtain ⟨⟨w, fault⟩, hload, hloaded⟩ :=
    load_run htree (Path.parent output) [Path.base output, mapName (Path.base output)] {}
  have hr : r = (writeBuild output b : StateM Host _).run h := rfl
  rw [mapName] at hload
  rw [writeBuild, run_bind, hload] at hr
  cases fault with
  | some e =>
    rw [hr]
    exact ⟨htree, fun _ _ _ => rfl⟩
  | none =>
    obtain ⟨hnames, -⟩ := hloaded rfl
    obtain ⟨hconsistent, -, hdirty⟩ := mirrors_load htree hload
    dsimp only at hr
    cases hstage : stage b (Path.base output) w with
    | error e =>
      rw [hstage] at hr
      rw [hr]
      exact ⟨htree, fun _ _ _ => rfl⟩
    | ok staged =>
      have hmarked := (stage_eq_ok hconsistent hdirty hstage).marked
      have hstaged : Consistent staged :=
        stage_keeps (fun hw hwrite => hw.write hwrite) (fun hw hdelete => hw.delete hdelete)
          hconsistent hstage
      obtain ⟨htree', hothers⟩ := hstaged.persist_others htree (Path.parent output)
      have hhost : r.2 = ((staged.persist (Path.parent output) : StateM Host _).run h).2 := by
        rw [hstage] at hr
        simp only [run_bind] at hr
        rw [hr]
        rcases (staged.persist (Path.parent output) : StateM Host _).run h with ⟨⟨_, _ | _⟩, _⟩ <;>
        rfl
      rw [hhost]
      refine ⟨htree', fun l hscript hmap => hothers l fun name hname => ?_⟩
      have hvalid := hnames (Path.base output) (by simp)
      rcases hmarked name hname with rfl | rfl
      · rwa [placeOf_base_self houtput hvalid]
      · rwa [mapName, placeOf_base houtput hvalid (hnames (mapName _) (by simp)) (by decide)]

theorem Job.build_others (hj : Path.NamesFile j.output) (htree : h.IsTree) (source : ByteArray) :
    let r := (j.build source : StateM Host _).run h
    r.2.IsTree ∧ ∀ l, l ∉ j.targets → r.2.file? l = h.file? l := by
  rw [Job.build]
  cases compile j.options (Text.decode source) with
  | error ds => exact ⟨htree, fun _ _ => rfl⟩
  | ok b =>
    obtain ⟨htree', hothers⟩ := writeBuild_others hj b htree
    refine ⟨htree', fun l hl => hothers l ?_ ?_⟩
    · exact fun heq => hl (heq ▸ List.mem_cons_self)
    · exact fun heq => hl (heq ▸ List.mem_cons_of_mem _ (List.mem_singleton_self _))

theorem Job.isTree_effect (hj : Path.NamesFile j.output) (htree : h.IsTree) :
    (j.effect h).2.IsTree := by
  rw [Job.effect]
  cases h.readFile j.input with
  | error e => exact htree
  | ok source => exact (build_others hj htree source).1

theorem Job.touchesOnly_buildLogged (hj : Path.NamesFile j.output) (htargets : j.targets ⊆ places)
    (c : Console) (source : ByteArray) :
    TouchesOnly places (j.buildLogged c source : StateM Desktop Outcome) := by
  refine (touchesOnly_of_host (host_logAll c _)).bind fun _ => ?_
  intro d htree
  obtain ⟨htree', hothers⟩ := build_others hj htree source
  rw [Job.build_onHost, run_onHost]
  exact ⟨htree', fun l hl => hothers l fun hmem => hl (htargets hmem), trivial⟩

theorem Job.touchesOnly_buildFile (hj : Path.NamesFile j.output) (htargets : j.targets ⊆ places)
    (c : Console) : TouchesOnly places (j.buildFile c : StateM Desktop Outcome) := by
  refine (touchesOnly_readFile j.input).bind fun r => ?_
  cases r with
  | error e => exact .pure trivial
  | ok source => exact touchesOnly_buildLogged hj htargets c source

/-- The jobs write to files at some places only. -/
def JobsWithin (places : List Location) (js : List Job) : Prop :=
  ∀ j ∈ js, Path.NamesFile j.output ∧ j.targets ⊆ places

theorem touchesOnly_buildAll {js : List Job} (hjs : JobsWithin places js) (c : Console) :
    TouchesOnly places (buildAll c js : StateM Desktop _) := by
  induction js with
  | nil => exact .pure trivial
  | cons j rest ih =>
    obtain ⟨hj, hrest⟩ := List.forall_mem_cons.1 hjs
    exact (j.touchesOnly_buildFile hj.1 hj.2 c).bind fun _ =>
      (ih hrest).bind fun _ => .pure trivial

theorem touchesOnly_reportAll (c : Console) (outcomes : List (Job × Outcome)) :
    TouchesOnly places (reportAll c outcomes : StateM Desktop Bool) := by
  induction outcomes with
  | nil => exact .pure trivial
  | cons r rest ih =>
    exact (touchesOnly_report r.1 c r.2).bind fun _ => ih.bind fun _ => .pure trivial

theorem within_compileFiles {js : List Job} (hjs : JobsWithin places js) (c : Console)
    (cancelled : Bool) :
    Within places (compileFiles c cancelled js : Step Unit).run (Granted fun _ => True) := by
  cases cancelled with
  | true => exact .pure fun _ _ => trivial
  | false =>
    refine (touchesOnly_buildAll hjs c).bind_lift fun outcomes _ => ?_
    refine (touchesOnly_reportAll c outcomes).bind_lift fun ok _ => ?_
    cases ok <;> exact .pure fun _ _ => trivial

/-! ## Watching -/

namespace Watcher

variable {w : Watcher}

theorem within_rebuild (hw : Path.NamesFile w.job.output) (htargets : w.job.targets ⊆ places) :
    Within places (w.rebuild : StateM Desktop Watcher) (·.job = w.job) := by
  refine (touchesOnly_readFile w.job.input).bind fun r => ?_
  cases r with
  | error e => exact (touchesOnly_log _ _).bind fun _ => .pure rfl
  | ok source =>
    dsimp only
    rw [rebuildFrom]
    cases w.staged.write w.name source with
    | error e => exact (touchesOnly_log _ _).bind fun _ => .pure rfl
    | ok staged =>
      dsimp only
      split
      · exact (touchesOnly_log _ _).bind fun _ => .pure rfl
      · exact (w.job.touchesOnly_buildLogged hw htargets _ _).bind fun outcome =>
          (touchesOnly_report _ _ outcome).bind fun _ => .pure rfl

theorem within_start (hj : Path.NamesFile j.output) (htargets : j.targets ⊆ places) (c : Console) :
    Within places (Watcher.start c j : Step Watcher).run (Granted (·.job = j)) := by
  have hstat : TouchesOnly places (HostAccess.stat (Path.parent j.input) : StateM Desktop _) :=
    touchesOnly_of_host fun _ => rfl
  have hfault : TouchesOnly places (directoryFault? (Path.parent j.input) : StateM Desktop _) := by
    refine hstat.bind fun r => ?_
    cases r <;> exact .pure trivial
  refine hfault.bind_lift fun fault _ => ?_
  cases fault with
  | some cause => exact .pure fun _ hr => (by cases hr)
  | none =>
    have hrebuild : Within places (rebuild { job := j, console := c } : StateM Desktop Watcher)
        (·.job = j) := within_rebuild hj htargets
    refine hrebuild.bind_lift fun w hw => ?_
    refine (touchesOnly_log c (w.fileLog .info "watching")).bind_lift fun _ _ => ?_
    exact .pure fun w' hw' => (Except.ok.inj hw') ▸ hw

end Watcher

theorem touchesOnly_apply {e : Edit} (he : locate e.path ∈ places) :
    TouchesOnly places e.apply := by
  intro d htree
  show (e.apply d).2.host.IsTree ∧
    (∀ l, l ∉ places → (e.apply d).2.host.file? l = d.host.file? l) ∧ True
  rw [Edit.apply]
  cases hwrite : d.host.writeFile e.path e.data with
  | error _ => exact ⟨htree, fun _ _ => rfl, trivial⟩
  | ok h =>
    obtain ⟨htree', -, -, hothers⟩ := htree.writeFile hwrite
    exact ⟨htree', fun l hl => hothers l fun heq => hl (heq ▸ he), trivial⟩

theorem touchesOnly_watchEdits {w : Watcher} {edits : List Edit}
    (hw : Path.NamesFile w.job.output) (htargets : w.job.targets ⊆ places)
    (hedits : ∀ e ∈ edits, locate e.path ∈ places) :
    TouchesOnly places (watchEdits w edits) := by
  induction edits generalizing w with
  | nil => exact .pure trivial
  | cons e rest ih =>
    obtain ⟨he, hrest⟩ := List.forall_mem_cons.1 hedits
    refine (touchesOnly_apply he).bind fun made => ?_
    split
    · have hreact : Within places (w.react : StateM Desktop Watcher) (·.job = w.job) :=
        (touchesOnly_log _ _).bind fun _ => Watcher.within_rebuild hw htargets
      exact hreact.bind fun w' hjob => ih (hjob ▸ hw) (hjob ▸ htargets) hrest
    · exact ih hw htargets hrest

/-! ## Pages -/

/-- Writing a page touches the file of the page only. If it succeeds, the page is there, unless an
old file of the same size and checksum passes for it. -/
theorem run_writePage (htree : d.host.IsTree) (directory : RawText) (p : Page) :
    let place := locate (Path.join directory pageName)
    let r := (writePage directory p : Step Unit).run.run d
    r.2.host.IsTree ∧ (∀ l, l ≠ place → r.2.host.file? l = d.host.file? l) ∧
      (r.1 = .ok () → (r.2.host.content? place = some p.print.data ↔
        ∀ old, d.host.content? place = some old → ¬ Mistaken old p.print.data)) := by
  intro place r
  obtain ⟨⟨w, fault⟩, hload, hloaded⟩ := load_run htree directory [RawText.ofString pageName] {}
  have hr : r = (writePage directory p : Step Unit).run.run d := rfl
  rw [writePage, run_lift_bind, load_onHost, run_onHost, hload] at hr
  cases fault with
  | some e =>
    rw [hr]
    exact ⟨htree, fun _ _ => rfl, fun hok => (by cases hok)⟩
  | none =>
    obtain ⟨hconsistent, htracks, hdirty⟩ := mirrors_load htree hload
    dsimp only at hr
    cases hwrite : w.write pageName p.print.data with
    | error e =>
      rw [hwrite] at hr
      rw [hr]
      exact ⟨htree, fun _ _ => rfl, fun hok => (by cases hok)⟩
    | ok w' =>
      obtain ⟨⟨e, hlookup, hstores⟩, -, hmarked⟩ := hconsistent.write_stores hwrite
      obtain ⟨htree', hothers⟩ := (hconsistent.write hwrite).persist_others htree directory
      rw [hwrite] at hr
      dsimp only at hr
      rw [run_lift_bind, persist_onHost, run_onHost] at hr
      rcases hpersist : (w'.persist directory : StateM Host _).run d.host with ⟨⟨w₁, fault⟩, h'⟩
      rw [hpersist] at hr htree' hothers
      have hhost : r.2.host = h' := by
        rw [hr]
        cases fault <;> rfl
      rw [hhost]
      refine ⟨htree', fun l hl => hothers l fun name hname => ?_, fun hok => ?_⟩
      · rcases hmarked name hname with hold | rfl
        · rw [hdirty] at hold
          cases hold
        · exact hl
      · obtain rfl : fault = none := by
          cases fault with
          | none => rfl
          | some e =>
            rw [hr] at hok
            cases hok
        obtain ⟨hfiles, -, -⟩ :=
          (htracks.write hwrite).persist (hconsistent.write hwrite) htree hpersist
        have hloaded' : w = takeOver d.host directory {} pageName := (hloaded rfl).2
        have hold : w.files.lookup (RawText.ofString pageName) =
            ((d.host.content? place).filter (·.size ≤ quota)).map Entry.ofData := by
          rw [hloaded', takeOver_self rfl]
          simp [place, placeOf]
        have hsize : p.print.data.size ≤ quota := by
          have hfits := of_decide_eq_true (write_ok_cases hwrite).2.1
          omega
        have hcontent : h'.content? place = some e.data := hfiles _ e hlookup
        rw [hcontent, Option.some.injEq, hstores, hold, forall_mistaken_iff hsize]

/-! ## Commands -/

/-- The places at which a command that compiles writes. -/
def Verb.targets (v : Verb) (c : Console) (a : Arguments) (config : Option Config)
    (js : List Job) : List Location :=
  if v = .run then
    js.flatMap (fun j => (j.moved (runDirectory c a config)).targets) ++
      [locate (Path.join (runDirectory c a config) pageName)]
  else js.flatMap Job.targets

/-- A command that goes on watches a job that writes at some places only. -/
def Progress.Within (places : List Location) : Progress → Prop
  | .exit _ => True
  | .watching w => Path.NamesFile w.job.output ∧ w.job.targets ⊆ places

theorem jobsWithin_of_jobs {a : Arguments} {config : Option Config} {js : List Job}
    (hjobs : jobs c a config = .ok js) (htargets : js.flatMap Job.targets ⊆ places) :
    JobsWithin places js :=
  fun j hj => ⟨(Job.Commanded.listed hjobs hj).namesFile,
    fun _ hl => htargets (List.mem_flatMap.2 ⟨j, hj, hl⟩)⟩

theorem within_singleJob (message : String) (js : List Job) :
    Within places (singleJob message js : Step Job).run (Granted fun j => js = [j]) := by
  unfold singleJob
  split
  · exact .pure fun j hj => Except.ok.inj hj ▸ rfl
  · exact .pure fun j hj => (by cases hj)

theorem withinAt_prepareJobs (c : Console) (a : Arguments) (d : Desktop) :
    WithinAt places d (prepareJobs c a : Step _).run
      (Granted fun r => configAt d.host c.directory = .ok r.1 ∧ jobs c a r.1 = .ok r.2) := by
  intro htree
  rw [run_prepareJobs, host_noteConfig]
  exact ⟨htree, fun _ _ => rfl, fun r hr => jobsAt_eq_ok.1 hr⟩

theorem within_watch {js : List Job} (hjs : JobsWithin places js) (message : String) (c : Console) :
    Within places (do
      let j ← singleJob message js
      return .watching (← Watcher.start c j) : Step Progress).run
        (Granted (Progress.Within places)) := by
  intro d
  refine (within_singleJob message js d).bind_run fun j hj => ?_
  obtain ⟨hname, htargets⟩ := hjs j (hj ▸ List.mem_singleton_self j)
  intro d
  refine (Watcher.within_start hname htargets c d).bind_run fun w hw => ?_
  refine .pure fun p hp => ?_
  obtain rfl := Except.ok.inj hp
  subst hw
  exact ⟨hname, htargets⟩

theorem within_writePage {directory : RawText}
    (hplace : locate (Path.join directory pageName) ∈ places) (p : Page) :
    Within places (writePage directory p : Step Unit).run (Granted fun _ => True) := by
  intro d htree
  obtain ⟨htree', hothers, -⟩ := run_writePage htree directory p
  exact ⟨htree', fun l hl => hothers l fun heq => hl (heq ▸ hplace), fun _ _ => trivial⟩

theorem within_showPage (c : Console) (a : Arguments) (page : RawText) :
    Within places (showPage c a page : Step Unit).run (Granted fun _ => True) := by
  have hstatus (text : String) : TouchesOnly places (c.status text : StateM Desktop Unit) :=
    touchesOnly_of_host fun _ => rfl
  have hopen (page : String) : TouchesOnly places (Terminal.openPage page : StateM Desktop _) :=
    touchesOnly_of_host fun _ => rfl
  refine (hstatus _).bind_lift fun _ _ => ?_
  split
  · exact .pure fun _ _ => trivial
  · refine (hopen _).bind_lift fun fault _ => ?_
    cases fault <;> exact .pure fun _ _ => trivial

theorem within_runJob {a : Arguments} {config : Option Config} {directory : RawText}
    (hj : Path.NamesFile j.output) (htargets : j.targets ⊆ places)
    (hpage : locate (Path.join directory pageName) ∈ places) (c : Console) :
    Within places (runJob c a config directory j : Step Unit).run (Granted fun _ => True) := by
  refine (j.touchesOnly_buildFile hj htargets c).bind_lift fun outcome _ => ?_
  refine (touchesOnly_report j c outcome).bind_lift fun ok _ => ?_
  cases ok with
  | false => exact .pure fun _ _ => trivial
  | true =>
    exact fun d => (within_writePage hpage _ d).bind_run fun _ _ => within_showPage c a _

theorem withinAt_runCommand {a : Arguments}
    (htargets : ∀ config js, configAt d.host c.directory = .ok config → jobs c a config = .ok js →
      Verb.run.targets c a config js ⊆ places) :
    WithinAt places d (runCommand c a : Step Unit).run (Granted fun _ => True) := by
  refine (withinAt_prepareJobs c a d).bind_run fun r hr => ?_
  obtain ⟨config, js⟩ := r
  have hsub := htargets config js hr.1 hr.2
  intro d'
  refine (within_singleJob _ js d').bind_run fun j hj => ?_
  subst hj
  have hname : Path.NamesFile (j.moved (runDirectory c a config)).output :=
    (Job.Commanded.moved _ (.listed hr.2 (List.mem_singleton_self j))).namesFile
  rw [Verb.targets, if_pos rfl, List.flatMap_singleton, List.append_subset] at hsub
  exact within_runJob hname hsub.1 (hsub.2 (List.mem_singleton_self _)) c

theorem withinAt_act {s : Setting} {a : Arguments} {v : Verb}
    (hv : v = .compile ∨ v = .run ∨ v = .watch)
    (htargets : ∀ config js, configAt d.host c.directory = .ok config → jobs c a config = .ok js →
      v.targets c a config js ⊆ places) :
    WithinAt places d (v.act s c a : Step Progress).run (Granted (Progress.Within places)) := by
  rcases hv with rfl | rfl | rfl
  · refine (withinAt_prepareJobs c a d).bind_run fun r hr => ?_
    have hjs : JobsWithin places r.2 := jobsWithin_of_jobs hr.2 (htargets r.1 r.2 hr.1 hr.2)
    obtain ⟨config, js⟩ := r
    dsimp only
    split
    · exact within_watch hjs _ c
    · intro d
      refine (within_compileFiles hjs c s.cancelled d).bind_run fun _ _ => ?_
      exact .pure fun p hp => Except.ok.inj hp ▸ trivial
  · refine (withinAt_runCommand htargets).bind_run fun _ _ => ?_
    exact .pure fun p hp => Except.ok.inj hp ▸ trivial
  · refine (withinAt_prepareJobs c a d).bind_run fun r hr => ?_
    have hjs : JobsWithin places r.2 := jobsWithin_of_jobs hr.2 (htargets r.1 r.2 hr.1 hr.2)
    obtain ⟨config, js⟩ := r
    exact within_watch hjs _ c

/-- The places at which a command line writes: those of its command, if the arguments and the
configuration make jobs. -/
def targets (s : Setting) (v : Verb) (args : List String) (h : Host) : List Location :=
  match readArguments v.flags args {} with
  | .error _ => []
  | .ok a =>
    match jobsAt h (s.console a) a with
    | .error _ => []
    | .ok (config, js) => v.targets (s.console a) a config js

theorem targets_of_ok {s : Setting} {v : Verb} {args : List String} {a : Arguments}
    {config : Option Config} {js : List Job} (hargs : readArguments v.flags args {} = .ok a)
    (hconfig : configAt h s.directory = .ok config) (hjobs : jobs (s.console a) a config = .ok js) :
    targets s v args h = v.targets (s.console a) a config js := by
  have hjobsAt : jobsAt h (s.console a) a = .ok (config, js) :=
    (jobsAt_eq_ok (c := s.console a)).2 ⟨hconfig, hjobs⟩
  rw [targets, hargs]
  dsimp only
  rw [hjobsAt]

theorem within_conclude {r : Except Stop Progress} (hr : Granted (Progress.Within places) r)
    (v : Verb) (c : Console) : Within places (v.conclude c r) (Progress.Within places) := by
  intro d htree
  rw [Verb.host_conclude]
  refine ⟨htree, fun _ _ => rfl, ?_⟩
  rcases r with (message | _ | message) | p
  · trivial
  · trivial
  · trivial
  · exact hr p rfl

theorem touchesOnly_finish {p : Progress} (hp : p.Within places) {edits : List Edit}
    (hedits : ∀ e ∈ edits, locate e.path ∈ places) : TouchesOnly places (finish edits p) := by
  cases p with
  | exit status => exact .pure trivial
  | watching w =>
    exact (touchesOnly_watchEdits hp.1 hp.2 hedits).bind fun _ => .pure trivial

theorem withinAt_session {s : Setting} {v : Verb} {args : List String} {edits : List Edit}
    (hv : v = .compile ∨ v = .run ∨ v = .watch) (htargets : targets s v args d.host ⊆ places)
    (hedits : ∀ e ∈ edits, locate e.path ∈ places) :
    WithinAt places d (session s (v.name :: args) edits) fun _ => True := by
  cases hargs : readArguments v.flags args {} with
  | error stop =>
    refine touchesOnly_of_host (fun d => ?_) d
    rw [session, start_name, Verb.start, hargs]
    cases stop <;> rfl
  | ok a =>
    have hact : WithinAt places d (v.act s (s.console a) a).run
        (Granted (Progress.Within places)) :=
      withinAt_act hv fun config js hconfig hjobs =>
        targets_of_ok hargs hconfig hjobs ▸ htargets
    intro htree
    rw [run_session edits hargs]
    have hconcluded := hact.bind fun r hr => within_conclude hr v (s.console a)
    exact (hconcluded.bind fun p hp => touchesOnly_finish hp hedits) htree

/-! ## Sources -/

theorem report_eq_true (j : Job) (c : Console) (outcome : Outcome) (d : Desktop) :
    ((j.report c outcome : StateM Desktop Bool).run d).1 = true ↔ outcome = .built := by
  cases outcome with
  | built => exact iff_of_true rfl rfl
  | rejected | failed =>
    exact iff_of_false (fun h => Bool.noConfusion h) fun h => Outcome.noConfusion h

theorem run_compileFiles_single (c : Console) (j : Job) (d : Desktop) :
    ∃ d', (compileFiles c false [j] : Step Unit).run.run d =
        (if (j.effect d.host).1 = .built then .ok () else .error .failed, d') ∧
      d'.host = (j.effect d.host).2 := by
  obtain ⟨houtcome, hhost⟩ := j.run_buildFile c d
  have hbuild : (buildAll c [j] : StateM Desktop _).run d =
      ([(j, ((j.buildFile c : StateM Desktop _).run d).1)],
        ((j.buildFile c : StateM Desktop _).run d).2) := rfl
  generalize (j.buildFile c : StateM Desktop _).run d = built at houtcome hhost hbuild
  have hreport : (reportAll c [(j, built.1)] : StateM Desktop Bool).run built.2 =
      (((j.report c built.1 : StateM Desktop Bool).run built.2).1 && true,
        ((j.report c built.1 : StateM Desktop Bool).run built.2).2) := rfl
  have hsaid : ((j.report c built.1 : StateM Desktop Bool).run built.2).2.host = built.2.host := by
    cases built.1 <;> rfl
  have hok := report_eq_true j c built.1 built.2
  refine ⟨((j.report c built.1 : StateM Desktop Bool).run built.2).2, ?_, hsaid.trans hhost⟩
  rw [← houtcome, compileFiles]
  show StateT.run (ExceptT.run (liftM (buildAll c [j]) >>= _)) d = _
  rw [run_lift_bind, hbuild, run_lift_bind, hreport, Bool.and_true]
  by_cases hbuilt : built.1 = .built
  · rw [if_pos hbuilt, hok.2 hbuilt]
    rfl
  · rw [if_neg hbuilt, Bool.eq_false_iff.2 (mt hok.1 hbuilt)]
    rfl

/-- A command that compiles one file ends well if it is not cancelled and the file is built, and then
it has done nothing else. -/
theorem compile_single {s : Setting} {args : List String} {a : Arguments}
    {config : Option Config} (edits : List Edit)
    (hargs : readArguments Verb.compile.flags args {} = .ok a)
    (hconfig : configAt d.host s.directory = .ok config)
    (hjobs : jobs (s.console a) a config = .ok [j]) (hwatch : a.switch "watch" = false) :
    let r := (session s ("compile" :: args) edits).run d
    (r.1 = 0 ↔ s.cancelled = false ∧ (j.effect d.host).1 = .built) ∧
      (r.1 = 0 → r.2.host = (j.effect d.host).2) := by
  intro r
  have hact : (Verb.compile.act s (s.console a) a : Step _).run.run d =
      (do
        compileFiles (s.console a) s.cancelled [j]
        return .exit 0 : Step Progress).run.run (noteConfig (s.console a) d) := by
    rw [Verb.act, run_bind_ok (run_prepareJobs_ok (c := s.console a) hconfig hjobs)]
    dsimp only
    rw [if_neg (by simp [hwatch])]
  -- Where the command stops early, its status is not zero.
  have hstopped {e : Stop} {d' : Desktop}
      (hrun : (compileFiles (s.console a) s.cancelled [j] :
        Step Unit).run.run (noteConfig (s.console a) d) = (.error e, d')) :
      r.1 ≠ 0 :=
    status_ne_zero_of_error edits hargs (hact.trans (run_bind_error hrun))
  cases hcancelled : s.cancelled with
  | true =>
    rw [hcancelled] at hstopped
    exact ⟨iff_of_false (hstopped rfl) (by simp), fun hzero => absurd hzero (hstopped rfl)⟩
  | false =>
    obtain ⟨d', hrun, hhost⟩ := run_compileFiles_single (s.console a) j (noteConfig (s.console a) d)
    rw [host_noteConfig] at hrun hhost
    rw [hcancelled] at hact hstopped
    by_cases hbuilt : (j.effect d.host).1 = .built
    · rw [if_pos hbuilt] at hrun
      have hsession : r = (0, d') :=
        run_session_of_exit (v := .compile) edits hargs (hact.trans (run_bind_ok hrun))
      rw [hsession]
      exact ⟨iff_of_true rfl ⟨rfl, hbuilt⟩, fun _ => hhost⟩
    · rw [if_neg hbuilt] at hrun
      exact ⟨iff_of_false (hstopped hrun) (mt And.right hbuilt),
        fun hzero => absurd hzero (hstopped hrun)⟩

/-- What a job that was built has done. -/
theorem Job.Commanded.updates_of_built (hj : j.Commanded) (htree : h.IsTree)
    (hbuilt : (j.effect h).1 = .built) :
    ∃ source b, h.readFile j.input = .ok source ∧
      compile j.options (Text.decode source) = .ok b ∧
      Updates b (locate j.output) (locate (j.output ++ ".map")) h (j.effect h).2 := by
  rw [Job.effect] at hbuilt ⊢
  cases hread : h.readFile j.input with
  | error e =>
    rw [hread] at hbuilt
    cases hbuilt
  | ok source =>
    rw [hread] at hbuilt
    dsimp only at hbuilt ⊢
    have hupdates := Job.build_updates_host hj source htree
    cases hcompile : compile j.options (Text.decode source) with
    | error ds =>
      rw [hcompile] at hupdates
      rw [hupdates] at hbuilt
      cases hbuilt
    | ok b =>
      rw [hcompile] at hupdates
      exact ⟨source, b, rfl, hcompile, hupdates hbuilt⟩

/-- A command that compiles touches no file but those at its targets: the scripts of its jobs, their
line maps and the page, and what others edit meanwhile. So every other file that it is given keeps
its content. A file that is its own target does not: once it is compiled, its script stands in its
place, unless the source passes for it. -/
theorem session_keeps_files {s : Setting} {v : Verb} {args : List String} {edits : List Edit}
    (hv : v = .compile ∨ v = .run ∨ v = .watch) (htree : d.host.IsTree) :
    let r := (session s (v.name :: args) edits).run d
    (∀ l, l ∉ targets s v args d.host → l ∉ edits.map (fun e => locate e.path) →
      r.2.host.file? l = d.host.file? l) ∧
    ∀ a config j, readArguments v.flags args {} = .ok a →
      configAt d.host s.directory = .ok config → jobs (s.console a) a config = .ok [j] →
      v = .compile → a.switch "watch" = false → r.1 = 0 → locate j.output = locate j.input →
        ∃ source b, d.host.readFile j.input = .ok source ∧
          compile j.options (Text.decode source) = .ok b ∧
          (r.2.host.content? (locate j.input) = some b.data ↔ ¬ Mistaken source b.data) := by
  intro r
  refine ⟨fun l hl hedited => ?_, ?_⟩
  · have hwithin := withinAt_session hv
      (List.subset_append_left _ (edits.map fun e => locate e.path))
      fun e he => List.mem_append_right (targets s v args d.host) (List.mem_map_of_mem he)
    refine (hwithin htree).2.1 l ?_
    rw [List.mem_append, not_or]
    exact ⟨hl, hedited⟩
  · rintro a config j hargs hconfig hjobs rfl hwatch hstatus hself
    obtain ⟨hiff, hhost⟩ := compile_single edits hargs hconfig hjobs hwatch
    obtain ⟨source, b, hread, hcompile, hupdates⟩ :=
      (Job.Commanded.listed hjobs (List.mem_singleton_self j)).updates_of_built htree
        (hiff.1 hstatus).2
    refine ⟨source, b, hread, hcompile, ?_⟩
    rw [← hself, show r.2.host = (j.effect d.host).2 from hhost hstatus, hupdates.script, hself]
    simp [htree.content_of_readFile hread]

theorem writeBuild_over_source {b : Build} {old kept : ByteArray} (hmap : b.map = none)
    (hlarger : old.size < b.data.size) (hsize : old.size + b.data.size ≤ quota) :
    ((writeBuild "/a.js" b : StateM Host _).run ⟨[([RawText.ofString "a.js"], .file old false),
      ([RawText.ofString "b.mflow"], .file kept false)]⟩).1 = .built := by
  set h : Host := ⟨[([RawText.ofString "a.js"], .file old false),
    ([RawText.ofString "b.mflow"], .file kept false)]⟩
  have hload : (Workspace.load (Path.parent "/a.js")
      [Path.base "/a.js", Path.base "/a.js" ++ ".map"] {} : StateM Host _).run h =
        ((({} : Workspace).loadFile "a.js" old, none), h) := rfl
  have hloaded : ({} : Workspace).loadFile "a.js" old =
      { files := [(RawText.ofString "a.js", .ofData old)], used := 0 - 0 + old.size } := by
    refine if_pos (decide_eq_true ?_)
    show 0 - 0 + old.size ≤ quota
    omega
  have hstage : stage b (Path.base "/a.js") (({} : Workspace).loadFile "a.js" old) =
      .ok ((({} : Workspace).loadFile "a.js" old).written "a.js" b.data) := by
    rw [hloaded]
    refine stage_of_size_ne (by decide +kernel) hmap rfl ?_ fun e he => ?_
    · show 0 - 0 + old.size + b.data.size ≤ quota
      omega
    · cases he
      exact Nat.ne_of_lt hlarger
  have hpersist : ((((({} : Workspace).loadFile "a.js" old).written "a.js" b.data).persist
      (Path.parent "/a.js") : StateM Host _).run h).1.2 = none := by
    rw [hloaded, persist, show (written _ "a.js" b.data).dirty = [RawText.ofString "a.js"] from rfl,
      List.mergeSort_singleton]
    rfl
  rw [writeBuild_of_steps hload hstage hpersist]

/-- A script that is its own source is replaced, and the file beside it is left alone. -/
theorem session_keeps_files_beside :
    let s : Setting := { directory := "/" }
    let source := "let x = 1".toUTF8
    let d : Desktop := { host := ⟨[([RawText.ofString "a.js"], .file source false),
      ([RawText.ofString "b.mflow"], .file "let y = 2".toUTF8 false)]⟩ }
    let o : Options := { sourceName := "a.js", outputName := "a.js" }
    d.host.IsTree ∧ ((session s ["compile", "a.js"] []).run d).1 = 0 ∧
      ((session s ["compile", "a.js"] []).run d).2.host.file? (locate "/b.mflow") =
        d.host.file? (locate "/b.mflow") ∧
      ∃ b, compile o (Text.decode source) = .ok b ∧
        ((session s ["compile", "a.js"] []).run d).2.host.content? (locate "/a.js") = some b.data ∧
        b.data ≠ source := by
  intro s source d o
  have htree : d.host.IsTree := Host.isTree_of_entries (by decide +kernel)
  have hargs : readArguments Verb.compile.flags ["a.js"] {} = .ok { files := ["a.js"] } := by
    decide +kernel
  have hconfig : configAt d.host s.directory = .ok none := by decide +kernel
  have hjobs : jobs (s.console { files := ["a.js"] }) { files := ["a.js"] } none =
      .ok [⟨"/a.js", "/a.js", o⟩] := by decide +kernel
  obtain ⟨b, hcompile, hmap, hlookup, hbound⟩ :=
    exists_build_of_check o (Text.decode source) 1000000 (by decide +kernel) rfl
      (by decide +kernel) (by decide +kernel) (by decide +kernel) (by decide +kernel)
  have hlarger : source.size < b.data.size := Nat.lt_of_lt_of_le (by decide +kernel) hlookup
  have hsize : source.size + b.data.size ≤ quota :=
    Nat.le_trans (Nat.add_le_add_left hbound source.size) (by decide +kernel)
  have hread : d.host.readFile "/a.js" = .ok source := by decide +kernel
  have hbuilt : (Job.effect ⟨"/a.js", "/a.js", o⟩ d.host).1 = .built := by
    rw [Job.effect, hread]
    simp only [Job.build, hcompile]
    exact writeBuild_over_source hmap hlarger hsize
  have hsingle := compile_single (s := s) (d := d) [] hargs hconfig hjobs (by decide)
  have hstatus := hsingle.1.2 ⟨rfl, hbuilt⟩
  obtain ⟨hkeeps, hown⟩ := @session_keeps_files d s .compile ["a.js"] [] (.inl rfl) htree
  obtain ⟨old, b', hread', hcompile', hiff⟩ :=
    hown _ _ _ hargs hconfig hjobs rfl (by decide) hstatus rfl
  obtain rfl : source = old := Except.ok.inj (hread.symm.trans hread')
  obtain rfl : b = b' := Except.ok.inj (hcompile.symm.trans hcompile')
  refine ⟨htree, hstatus, hkeeps _ ?_ (List.not_mem_nil), b, hcompile, ?_, ?_⟩
  · rw [targets_of_ok hargs hconfig hjobs]
    decide +kernel
  · exact hiff.2 fun hmistaken => Nat.ne_of_lt hlarger hmistaken.size
  · rintro heq
    rw [heq] at hlarger
    exact Nat.lt_irrefl _ hlarger

end Easel.Command
