import Easel.Proofs.Command.Frame

/-!
# The canvas of a page and of its script

A command that runs a file writes a script, which looks up a canvas, and a page, which has one.  A
flag names the canvas of both, or the configuration does, or it is the default.  An empty flag is
where they differ: the script takes it for the default, the page for the name in the configuration.
Everywhere else they agree: `run_canvas_agrees_iff`.
-/

namespace Easel

namespace Command

open Workspace

variable {d : Desktop} {j : Job} {config : Option Config} {a : Arguments} {c : Console}

/-! ## Names -/

/-- A flag takes the canvas away that the configuration names: an empty one, where the name is not
that of the default. -/
def CanvasLost (a : Arguments) (config : Option Config) : Prop :=
  a.text? "canvas" = some "" ∧ ∃ found, config = some found ∧
    found.canvas.id.isEmpty = false ∧ found.canvas.id.text ≠ Script.defaultCanvas

/-- The canvas of a page is the one its script looks up, unless a flag takes it away. -/
theorem canvasId_pageFor_eq_iff (hcanvas : j.options.canvas = (jobOptions a config).canvas) :
    (pageFor config j).canvasId = j.options.canvasId ↔ ¬ CanvasLost a config := by
  rw [Script.Style.canvasId]
  cases hempty : j.options.canvas.isEmpty with
  | false =>
    have hpage : (pageFor config j).canvasId = j.options.canvas := by
      simp [pageFor, Page.ofConfig, hempty, RawText.isEmpty_ofString, RawText.text_ofString]
    refine iff_of_true (by simpa using hpage) ?_
    rintro ⟨hflag, -⟩
    rw [hcanvas, jobOptions, hflag] at hempty
    cases hempty
  | true =>
    have hpage : (pageFor config j).canvasId =
        if (config.getD Config.default).canvas.id.isEmpty then Script.defaultCanvas
        else (config.getD Config.default).canvas.id.text := by
      simp [pageFor, Page.ofConfig, hempty]
    rw [hpage, if_pos rfl]
    cases config with
    | none =>
      refine iff_of_true rfl ?_
      rintro ⟨-, _, hnone, -⟩
      cases hnone
    | some found =>
      cases hid : found.canvas.id.isEmpty with
      | true =>
        refine iff_of_true (by simp [hid]) ?_
        rintro ⟨-, _, ⟨⟩, hfull, -⟩
        rw [hid] at hfull
        cases hfull
      | false =>
        have hflag : a.text? "canvas" = some "" := by
          rw [hcanvas, jobOptions] at hempty
          cases hflag : a.text? "canvas" with
          | none =>
            rw [hflag] at hempty
            have hnamed : found.canvas.id.text.isEmpty = true := hempty
            rw [RawText.isEmpty_text, hid] at hnamed
            cases hnamed
          | some text =>
            rw [hflag] at hempty
            rw [String.isEmpty_iff.1 (show text.isEmpty = true from hempty)]
        simp [CanvasLost, hflag, hid]

/-! ## Running -/

theorem run_singleJob {message : String} {js : List Job} {d' : Desktop}
    (hrun : (singleJob message js : Step Job).run.run d = (.ok j, d')) :
    js = [j] ∧ d' = d := by
  unfold singleJob at hrun
  split at hrun
  · cases hrun
    exact ⟨rfl, rfl⟩
  · cases hrun

theorem host_showPage {page : RawText} {d' : Desktop} {r : Except Stop Unit}
    (hrun : (showPage c a page : Step Unit).run.run d = (r, d')) :
    d'.host = d.host := by
  rw [showPage, run_lift_bind] at hrun
  split at hrun
  · cases hrun
    rfl
  · rw [run_lift_bind] at hrun
    split at hrun <;>
    · cases hrun
      rfl

/-- What running a job does after its script is built. -/
theorem run_runJob (c : Console) (a : Arguments) (config : Option Config) (directory : RawText)
    (j : Job) (d : Desktop) :
    ∃ d₁, d₁.host = (j.effect d.host).2 ∧
      (runJob c a config directory j : Step Unit).run.run d =
        if (j.effect d.host).1 = .built then
          (do
            writePage directory (pageFor config j)
            showPage c a (Path.join directory pageName) : Step Unit).run.run d₁
        else (.error .failed, d₁) := by
  obtain ⟨houtcome, hhost⟩ := j.run_buildFile c d
  rw [← houtcome, runJob, run_lift_bind]
  generalize (j.buildFile c : StateM Desktop _).run d = built at houtcome hhost
  have hreported := report_eq_true j c built.1 built.2
  have hsaid : ((j.report c built.1 : StateM Desktop Bool).run built.2).2.host = built.2.host := by
    cases built.1 <;> rfl
  rw [run_lift_bind]
  generalize (j.report c built.1 : StateM Desktop Bool).run built.2 = reported at hreported hsaid
  obtain ⟨ok, d₁⟩ := reported
  refine ⟨d₁, hsaid.trans hhost, ?_⟩
  by_cases hbuilt : built.1 = .built
  · obtain rfl : ok = true := hreported.2 hbuilt
    rw [if_pos hbuilt]
    rfl
  · obtain rfl : ok = false := Bool.eq_false_iff.2 (mt hreported.1 hbuilt)
    rw [if_neg hbuilt]
    rfl

theorem built_of_runJob {directory : RawText} {d' : Desktop}
    (hrun : (runJob c a config directory j : Step Unit).run.run d = (.ok (), d')) :
    (j.effect d.host).1 = .built ∧ ∃ d₁, d₁.host = (j.effect d.host).2 ∧
      let r := (writePage directory (pageFor config j) : Step Unit).run.run d₁
      r.1 = .ok () ∧ d'.host = r.2.host := by
  obtain ⟨d₁, hhost, hjob⟩ := run_runJob c a config directory j d
  rw [hjob] at hrun
  split at hrun
  · next hbuilt =>
    obtain ⟨⟨⟩, d₂, hpage, hshow⟩ := of_run_bind_ok hrun
    refine ⟨hbuilt, d₁, hhost, ?_⟩
    rw [hpage]
    exact ⟨rfl, host_showPage hshow⟩
  · cases hrun

/-- A command that runs a file and ends well has built its script, then written the page, and done
nothing else to the host. -/
theorem built_of_runCommand {d' : Desktop}
    (hrun : (runCommand c a : Step Unit).run.run d = (.ok (), d')) :
    ∃ config j, configAt d.host c.directory = .ok config ∧ jobs c a config = .ok [j] ∧
      let directory := runDirectory c a config
      ((j.moved directory).effect d.host).1 = .built ∧
        ∃ d₁, d₁.host = ((j.moved directory).effect d.host).2 ∧
          let r := (writePage directory (pageFor config (j.moved directory)) : Step Unit).run.run d₁
          r.1 = .ok () ∧ d'.host = r.2.host := by
  obtain ⟨⟨config, js⟩, d₁, hprepare, hrun⟩ := of_run_bind_ok hrun
  rw [run_prepareJobs] at hprepare
  obtain ⟨hjobsAt, rfl⟩ := Prod.mk.inj hprepare
  obtain ⟨hconfig, hjobs⟩ := jobsAt_eq_ok.1 hjobsAt
  obtain ⟨j, d₁, hsingle, hrun⟩ := of_run_bind_ok hrun
  obtain ⟨rfl, rfl⟩ := run_singleJob hsingle
  refine ⟨config, j, hconfig, hjobs, ?_⟩
  have hbuilt := built_of_runJob hrun
  rwa [host_noteConfig] at hbuilt

/-- The start of the tag of a canvas with an id. -/
def canvasTag (id : String) : RawText := "<canvas id=\"" ++ Page.escape id ++ "\""

theorem canvasTag_infix_print (p : Page) : (canvasTag p.canvasId).glyphs <:+: p.print.glyphs := by
  have happend (x y : RawText) : (x ++ y).glyphs = x.glyphs ++ y.glyphs := rfl
  have hopen : (RawText.ofString "\n</style>\n</head>\n<body>\n<canvas id=\"").glyphs =
      (RawText.ofString "\n</style>\n</head>\n<body>\n").glyphs ++
        (RawText.ofString "<canvas id=\"").glyphs := by decide
  have hclose : (RawText.ofString "\" width=\"").glyphs =
      (RawText.ofString "\"").glyphs ++ (RawText.ofString " width=\"").glyphs := by decide
  unfold Page.print canvasTag
  simp only [happend]
  -- The tag stands in the middle: first what follows it is left out, then what comes before it.
  iterate 6 refine List.IsInfix.trans ?_ (List.prefix_append _ _).isInfix
  rw [hopen, hclose]
  generalize (RawText.ofString "\n</style>\n</head>\n<body>\n").glyphs = front
  generalize (RawText.ofString " width=\"").glyphs = back
  have hmiddle (x y z u : List Text.Glyph) : y ++ z ++ u <:+: x ++ (front ++ y) ++ z ++ (u ++ back) :=
    ⟨x ++ front, back, by simp⟩
  exact hmiddle _ _ _ _

theorem lookup_infix_of_compile {o : Options} {source : String} {b : Build}
    (hcompile : compile o source = .ok b) (hid : '\n' ∉ o.canvasId.toList) :
    (Script.lookup o.canvasId).toList <:+: b.script.toList := by
  rw [compile_eq_ok hcompile]
  exact Program.lookup_infix_build hid _

/-- A file that runs without an error has a script and, unless an old file passes for it, a page. The
canvas of the page is the one that the script looks up, unless an empty flag takes away a name that
the configuration gives to it. -/
theorem run_canvas_agrees_iff {s : Setting} {args : List String} (edits : List Edit)
    (hargs : readArguments Verb.run.flags args {} = .ok a) (htree : d.host.IsTree)
    (hstatus : ((session s ("run" :: args) edits).run d).1 = 0) :
    ∃ config j source b h₁, configAt d.host s.directory = .ok config ∧
      jobs (s.console a) a config = .ok [j] ∧ d.host.readFile j.input = .ok source ∧
      compile j.options (Text.decode source) = .ok b ∧
      let directory := runDirectory (s.console a) a config
      let script := (j.moved directory).output
      let page := pageFor config (j.moved directory)
      let place := locate (Path.join directory pageName)
      let h₂ := ((session s ("run" :: args) edits).run d).2.host
      Updates b (locate script) (locate (script ++ ".map")) d.host h₁ ∧
      (h₂.content? place = some page.print.data ↔
        ∀ old, h₁.content? place = some old → ¬ Mistaken old page.print.data) ∧
      (∀ l, l ≠ place → h₂.file? l = h₁.file? l) ∧
      (canvasTag page.canvasId).glyphs <:+: page.print.glyphs ∧
      ('\n' ∉ j.options.canvasId.toList →
        (Script.lookup j.options.canvasId).toList <:+: b.script.toList) ∧
      (page.canvasId = j.options.canvasId ↔ ¬ CanvasLost a config) := by
  obtain ⟨p, d', hact⟩ := exists_progress_of_status (v := .run) edits hargs hstatus
  obtain ⟨⟨⟩, d₁, hrun, hexit⟩ := of_run_bind_ok hact
  cases hexit
  have hsession : (session s ("run" :: args) edits).run d = (0, d') :=
    run_session_of_exit (v := .run) edits hargs hact
  obtain ⟨config, j, hconfig, hjobs, hbuilt, d₁, hhost, hok, hpage⟩ := built_of_runCommand hrun
  have hlisted : j.Commanded := .listed hjobs (List.mem_singleton_self j)
  obtain ⟨source, b, hread, hcompile, hupdates⟩ :=
    (hlisted.moved (runDirectory (s.console a) a config)).updates_of_built htree hbuilt
  have htree₁ : d₁.host.IsTree := by
    rw [hhost]
    exact Job.isTree_effect (hlisted.moved _).namesFile htree
  obtain ⟨-, hothers, hcontent⟩ := run_writePage htree₁ (runDirectory (s.console a) a config)
    (pageFor config (j.moved (runDirectory (s.console a) a config)))
  have hcanvas : j.options.canvas = (jobOptions a config).canvas := by
    obtain ⟨files, -, hjs, -⟩ := jobs_eq_ok hjobs
    obtain ⟨input, -, rfl⟩ := List.mem_map.1 (hjs ▸ List.mem_singleton_self j)
    rfl
  refine ⟨config, j, source, b, d₁.host, hconfig, hjobs, hread, hcompile, hhost ▸ hupdates, ?_, ?_,
    canvasTag_infix_print _, lookup_infix_of_compile hcompile, canvasId_pageFor_eq_iff hcanvas⟩
  · rw [hsession, hpage]
    exact hcontent hok
  · rw [hsession, hpage]
    exact hothers

/-! ## An empty flag -/

/-- A page whose steps all succeed is written. -/
theorem writePage_of_steps {directory : RawText} {p : Page} {loaded staged : Workspace}
    (hload : (Workspace.load directory [RawText.ofString pageName] {} : StateM Host _).run d.host =
      ((loaded, none), d.host))
    (hwrite : loaded.write pageName p.print.data = .ok staged)
    (hpersist : ((staged.persist directory : StateM Host _).run d.host).1.2 = none) :
    ((writePage directory p : Step Unit).run.run d).1 = .ok () := by
  rw [writePage, run_lift_bind, load_onHost, run_onHost, hload]
  dsimp only
  rw [hwrite]
  dsimp only
  rw [run_lift_bind, persist_onHost, run_onHost]
  generalize (staged.persist directory : StateM Host _).run d.host = r at hpersist
  obtain ⟨⟨w, fault⟩, h'⟩ := r
  obtain rfl : fault = none := hpersist
  rfl

/-- A command that runs a file ends well if its script is built, its page is written and nothing is
to be opened. -/
theorem status_run_of_built {s : Setting} {args : List String} {directory : RawText}
    (edits : List Edit) (hargs : readArguments Verb.run.flags args {} = .ok a)
    (hconfig : configAt d.host s.directory = .ok config)
    (hjobs : jobs (s.console a) a config = .ok [j])
    (hdirectory : runDirectory (s.console a) a config = directory)
    (hopen : a.switch "no-open" = true) (hbuilt : ((j.moved directory).effect d.host).1 = .built)
    (hpage : ∀ d₁, d₁.host = ((j.moved directory).effect d.host).2 →
      ((writePage directory (pageFor config (j.moved directory)) :
        Step Unit).run.run d₁).1 = .ok ()) :
    ((session s ("run" :: args) edits).run d).1 = 0 := by
  obtain ⟨d₁, hhost, hjob⟩ :=
    run_runJob (s.console a) a config directory (j.moved directory) (noteConfig (s.console a) d)
  rw [host_noteConfig] at hhost hjob
  rw [if_pos hbuilt] at hjob
  have hwritten := hpage d₁ hhost
  rcases hpage : (writePage directory (pageFor config (j.moved directory)) :
    Step Unit).run.run d₁ with ⟨r, d₂⟩
  rw [hpage] at hwritten
  obtain rfl : r = .ok () := hwritten
  obtain ⟨d₃, hshow⟩ : ∃ d₃, (showPage (s.console a) a (Path.join directory pageName) :
      Step Unit).run.run d₂ = (.ok (), d₃) := by
    rw [showPage, run_lift_bind, if_pos hopen]
    exact ⟨_, rfl⟩
  have hrun : (runCommand (s.console a) a : Step Unit).run.run d = (.ok (), d₃) := by
    have hsingle : (singleJob "run takes a single input file" [j] :
        Step Job).run.run (noteConfig (s.console a) d) = (.ok j, noteConfig (s.console a) d) := rfl
    rw [runCommand, run_bind_ok (run_prepareJobs_ok (c := s.console a) hconfig hjobs)]
    dsimp only
    rw [run_bind_ok hsingle, hdirectory, hjob, run_bind_ok hpage, hshow]
  have hsession : (session s ("run" :: args) edits).run d = (0, d₃) :=
    run_session_of_exit (v := .run) edits hargs (run_bind_ok hrun)
  rw [hsession]

section Empty

variable {b : Build} {p : Page} {source settings : ByteArray}

theorem writeBuild_beside_source (hmap : b.map = none) (hsize : b.data.size ≤ quota) :
    (writeBuild "/a.js" b : StateM Host _).run ⟨[([RawText.ofString "a.mflow"], .file source false),
      ([RawText.ofString "mflow.config.json"], .file settings false)]⟩ =
    (.built, ⟨[([RawText.ofString "a.js"], .file b.data false),
      ([RawText.ofString "a.mflow"], .file source false),
      ([RawText.ofString "mflow.config.json"], .file settings false)]⟩) := by
  set h : Host := ⟨[([RawText.ofString "a.mflow"], .file source false),
    ([RawText.ofString "mflow.config.json"], .file settings false)]⟩
  have hload : (Workspace.load (Path.parent "/a.js")
      [Path.base "/a.js", Path.base "/a.js" ++ ".map"] {} : StateM Host _).run h =
        (({}, none), h) := rfl
  have hstage : stage b (Path.base "/a.js") {} = .ok (written {} "a.js" b.data) :=
    stage_of_size_ne (by decide +kernel) hmap rfl ((Nat.zero_add b.data.size).symm ▸ hsize)
      fun e he => (by cases he)
  have hpersist : ((written {} "a.js" b.data).persist (Path.parent "/a.js") : StateM Host _).run h =
      (({ written {} "a.js" b.data with dirty := [], changed := false }, none),
        ⟨([RawText.ofString "a.js"], .file b.data false) :: h.entries⟩) := by
    rw [persist, show (written {} "a.js" b.data).dirty = [RawText.ofString "a.js"] from rfl,
      List.mergeSort_singleton]
    rfl
  rw [writeBuild_of_steps hload hstage (hpersist ▸ rfl), hpersist]

theorem writePage_beside_script {script : ByteArray} (hsize : p.print.data.size ≤ quota)
    (hhost : d.host = ⟨[([RawText.ofString "a.js"], .file script false),
      ([RawText.ofString "a.mflow"], .file source false),
      ([RawText.ofString "mflow.config.json"], .file settings false)]⟩) :
    ((writePage "/" p : Step Unit).run.run d).1 = .ok () := by
  have hwrite : ({} : Workspace).write pageName p.print.data =
      .ok (written {} pageName p.print.data) := by
    refine (write_of_fits (by decide +kernel) (decide_eq_true ?_)).2 fun e he => (by cases he)
    exact (Nat.zero_add p.print.data.size).symm ▸ hsize
  refine @writePage_of_steps d "/" p {} _ ?_ hwrite ?_
  · rw [hhost]
    rfl
  · generalize p.print.data = data
    rw [hhost, persist, show (written {} pageName data).dirty = [RawText.ofString pageName] from rfl,
      List.mergeSort_singleton]
    rfl

end Empty

/-- An empty flag takes the name of the canvas away from the script but not from the page. -/
theorem run_canvas_agrees_iff_lost :
    let s : Setting := { directory := "/" }
    let source := "let x = 1".toUTF8
    let d : Desktop := { host := ⟨[([RawText.ofString "a.mflow"], .file source false),
      ([RawText.ofString "mflow.config.json"],
        .file r#"{"canvas":{"id":"stage"}}"#.toUTF8 false)]⟩ }
    let args := ["--canvas=", "--no-open", "--out-dir=.", "a.mflow"]
    let o : Options := { sourceName := "a.mflow", outputName := "a.js" }
    d.host.IsTree ∧ ((session s ("run" :: args) []).run d).1 = 0 ∧
      (∃ b, compile o (Text.decode source) = .ok b ∧
        ((session s ("run" :: args) []).run d).2.host.content? (locate "/a.js") = some b.data ∧
        (Script.lookup "mflow-canvas").toList <:+: b.script.toList) ∧
      ∃ page : Page, page.canvasId = "stage" ∧
        ((session s ("run" :: args) []).run d).2.host.content? (locate "/index.html") =
          some page.print.data := by
  intro s source d args o
  have htree : d.host.IsTree := Host.isTree_of_entries (by decide +kernel)
  have hargs : readArguments Verb.run.flags args {} = .ok
      { values := [("canvas", .text ""), ("no-open", .switch true), ("out-dir", .text ".")],
        files := ["a.mflow"] } := by
    decide +kernel
  set a : Arguments :=
    { values := [("canvas", .text ""), ("no-open", .switch true), ("out-dir", .text ".")],
      files := ["a.mflow"] }
  set config : Config := { Config.default with canvas := { Config.default.canvas with id := "stage" } }
  have hconfig : configAt d.host s.directory = .ok (some config) := by decide +kernel
  have hjobs : jobs (s.console a) a (some config) = .ok [⟨"/a.mflow", "/a.js", o⟩] := by
    decide +kernel
  have hdirectory : runDirectory (s.console a) a (some config) = "/" := by decide +kernel
  have hmoved : Job.moved ⟨"/a.mflow", "/a.js", o⟩ "/" = ⟨"/a.mflow", "/a.js", o⟩ := by decide +kernel
  have hread : d.host.readFile "/a.mflow" = .ok source := by decide +kernel
  obtain ⟨b, hcompile, hmap, -, hsize⟩ :=
    exists_build_of_check o (Text.decode source) quota (by decide +kernel) rfl
      (by decide +kernel) (by decide +kernel) (by decide +kernel) (by decide +kernel)
  have heffect : Job.effect ⟨"/a.mflow", "/a.js", o⟩ d.host =
      (.built, ⟨([RawText.ofString "a.js"], .file b.data false) :: d.host.entries⟩) := by
    rw [Job.effect, hread]
    simp only [Job.build, hcompile]
    exact writeBuild_beside_source hmap hsize
  have hstatus : ((session s ("run" :: args) []).run d).1 = 0 := by
    refine status_run_of_built [] hargs hconfig hjobs hdirectory (by decide) ?_ ?_
    · rw [hmoved, heffect]
    · rw [hmoved, heffect]
      intro d₁ hhost
      exact writePage_beside_script (by decide +kernel) hhost
  obtain ⟨config', j, source', b', h₁, hconfig', hjobs', hread', hcompile', hupdates, hpage, hothers,
    -, hlookup, -⟩ := run_canvas_agrees_iff (s := s) (d := d) [] hargs htree hstatus
  obtain rfl : some config = config' := Except.ok.inj (hconfig.symm.trans hconfig')
  obtain rfl := (List.cons.inj (Except.ok.inj (hjobs.symm.trans hjobs'))).1
  obtain rfl : source = source' := Except.ok.inj (hread.symm.trans hread')
  obtain rfl : b = b' := Except.ok.inj (hcompile.symm.trans hcompile')
  rw [hdirectory, hmoved] at hupdates hpage
  rw [hdirectory] at hothers
  refine ⟨htree, hstatus, ⟨b, hcompile, ?_, hlookup (by decide +kernel)⟩, _, ?_, hpage.2 ?_⟩
  · have hkept := congrArg (Option.map Prod.fst) (hothers (locate "/a.js") (by decide +kernel))
    refine hkept.trans (hupdates.script.2 fun old hold => ?_)
    cases hold
  · decide +kernel
  · intro old hold
    have hkept := congrArg (Option.map Prod.fst)
      (hupdates.others (locate "/index.html") (by decide +kernel) (by decide +kernel))
    cases hkept.symm.trans hold

end Command

end Easel
