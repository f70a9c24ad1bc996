import Easel.Command.Run
import Easel.Proofs.LineMap.Exact
import Easel.Proofs.Path.Names
import Easel.Proofs.Script.Size
import Easel.Proofs.Workspace.Exchange
import Easel.Proofs.Workspace.Overwrite

/-!
# What a build leaves on the host

A build goes through a workspace: the old script and the old line map are loaded as far as they fit,
the new ones are staged, and what is marked is persisted.  A source that is rejected leaves the host
as it is.  After a build that succeeds the script and the line map are there, except where an old
file of the same size and checksum is taken for the new one; an old line map is gone, except where
it did not fit; and no other file has changed: `Job.build_updates_host`.
-/

namespace Easel

/-! ## Staging -/

namespace Workspace

variable {w w' : Workspace} {name : RawText} {data : ByteArray}

/-- The old content is taken for the new although it differs. -/
structure Mistaken (old data : ByteArray) : Prop where
  ne : old ≠ data
  size : old.size = data.size
  checksum : Easel.checksum old = Easel.checksum data

/-- What a write that succeeds stores, and which names it marks. -/
theorem Consistent.write_stores (hw : Consistent w) (hwrite : w.write name data = .ok w') :
    (∃ e, w'.files.lookup name = some e ∧
      (e.data = data ↔ ∀ old, w.files.lookup name = some old → ¬ Mistaken old.data data)) ∧
    (∀ other, other ≠ name → w'.files.lookup other = w.files.lookup other) ∧
    ∀ other ∈ w'.dirty, other ∈ w.dirty ∨ other = name := by
  obtain ⟨-, -, ⟨⟨e, hlookup, hpasses⟩, rfl⟩ | ⟨hother, rfl⟩⟩ := write_ok_cases hwrite
  · refine ⟨⟨e, hlookup, ?_⟩, fun _ _ => rfl, fun _ => .inl⟩
    have hchecksum := hw.checksum_of_lookup hlookup
    constructor
    · rintro hdata old hold ⟨hne, -, -⟩
      rw [hlookup] at hold
      exact hne (Option.some.inj hold ▸ hdata)
    · intro hnone
      by_contra hne
      exact hnone e hlookup ⟨hne, hpasses.2, hchecksum.symm.trans hpasses.1⟩
  · refine ⟨⟨_, lookup_store_self _, fun _ old hold hmistaken => ?_, fun _ => rfl⟩,
      fun other hne => lookup_store_of_ne hne _, fun other hmem => (mem_mark.1 hmem).symm⟩
    exact hother old hold
      ⟨(hw.checksum_of_lookup hold).trans hmistaken.checksum, hmistaken.size⟩

end Workspace

namespace Command

open Workspace

variable {h h' : Host} {root name output : RawText} {w w' : Workspace} {b : Build}

/-- The name of the line map of a script. -/
def mapName (name : RawText) : RawText := name ++ ".map"

theorem mapName_ne (name : RawText) : mapName name ≠ name := by
  intro heq
  have hlength := congrArg (fun r : RawText => r.glyphs.length) heq
  have hmap : (mapName name).glyphs.length = name.glyphs.length + 4 := List.length_append
  simp only [hmap] at hlength
  omega

/-- What a stage leaves in a workspace that had nothing marked. -/
structure Staged (b : Build) (name : RawText) (w w' : Workspace) : Prop where
  size : b.data.size ≤ quota
  script : ∃ e, w'.files.lookup name = some e ∧
    (e.data = b.data ↔ ∀ old, w.files.lookup name = some old → ¬ Mistaken old.data b.data)
  map : ∀ m, b.map = some m → ∃ e, w'.files.lookup (mapName name) = some e ∧
    (e.data = m.print.toUTF8 ↔
      ∀ old, w.files.lookup (mapName name) = some old → ¬ Mistaken old.data m.print.toUTF8)
  stale : b.map = none → w'.files.lookup (mapName name) = none ∧
    (mapName name ∈ w'.dirty ↔ (w.files.lookup (mapName name)).isSome)
  marked : ∀ other ∈ w'.dirty, other = name ∨ other = mapName name

/-- A stage writes the script first, and then writes the line map or deletes an old one. -/
theorem exists_of_stage (hstage : stage b name w = .ok w') :
    ∃ between, w.write name b.data = .ok between ∧
      match b.map with
      | some m => between.write (mapName name) m.print.toUTF8 = .ok w'
      | none =>
        if between.contains (mapName name) then between.delete (mapName name) = .ok w'
        else between = w' := by
  rw [stage] at hstage
  cases hscript : w.write name b.data with
  | error e =>
    rw [hscript] at hstage
    cases hstage
  | ok between =>
    rw [hscript] at hstage
    refine ⟨between, rfl, ?_⟩
    cases hmap : b.map with
    | some m =>
      rw [hmap] at hstage
      exact hstage
    | none =>
      rw [hmap] at hstage
      change (if between.contains (mapName name) then between.delete (mapName name)
        else .ok between) = .ok w' at hstage
      split at hstage
      · next hcontains => simpa [hcontains] using hstage
      · next hcontains => simpa [hcontains] using hstage

/-- What writing and deleting keep, a stage keeps. -/
theorem stage_keeps {P : Workspace → Prop}
    (hwrite : ∀ {w w' name data}, P w → write w name data = .ok w' → P w')
    (hdelete : ∀ {w w' name}, P w → delete w name = .ok w' → P w')
    (hw : P w) (hstage : stage b name w = .ok w') : P w' := by
  obtain ⟨between, hscript, hrest⟩ := exists_of_stage hstage
  have hbetween := hwrite hw hscript
  split at hrest
  · exact hwrite hbetween hrest
  · split at hrest
    · exact hdelete hbetween hrest
    · exact hrest ▸ hbetween

theorem stage_eq_ok (hw : Consistent w) (hdirty : w.dirty = []) (hstage : stage b name w = .ok w') :
    Staged b name w w' := by
  obtain ⟨between, hscript, hrest⟩ := exists_of_stage hstage
  have hfits : b.data.size ≤ quota := by
    have hfits := of_decide_eq_true (write_ok_cases hscript).2.1
    omega
  obtain ⟨hnew, hothers, hmarked⟩ := hw.write_stores hscript
  have hmap := hothers (mapName name) (mapName_ne name)
  have hmarked : ∀ other ∈ between.dirty, other = name := by
    intro other hother
    simpa [hdirty] using hmarked other hother
  cases hsome : b.map with
  | some m =>
    rw [hsome] at hrest
    obtain ⟨hnewMap, hothers', hmarked'⟩ := (hw.write hscript).write_stores hrest
    refine ⟨hfits, ?_, fun m' hm' => ?_, fun hnone => ?_, fun other hother => ?_⟩
    · rw [hothers' name (mapName_ne name).symm]
      exact hnew
    · rw [hsome] at hm'
      rw [← hmap, ← Option.some.inj hm']
      exact hnewMap
    · rw [hsome] at hnone
      cases hnone
    · exact (hmarked' other hother).imp_left (hmarked other)
  | none =>
    rw [hsome] at hrest
    have hnone : ∀ m, b.map ≠ some m := by simp [hsome]
    cases hold : w.files.lookup (mapName name) with
    | none =>
      obtain rfl : between = w' := by
        simpa [contains, hmap, hold] using hrest
      refine ⟨hfits, hnew, fun m hm => absurd hm (hnone m), fun _ => ⟨hmap.trans hold, ?_⟩,
        fun other hother => .inl (hmarked other hother)⟩
      simpa [hold] using fun hmem => mapName_ne name (hmarked _ hmem)
    | some old =>
      have hdelete : between.delete (mapName name) = .ok w' := by
        simpa [contains, hmap, hold] using hrest
      obtain ⟨hgone, hdirty', hothers'⟩ := delete_ok hdelete
      refine ⟨hfits, ?_, fun m hm => absurd hm (hnone m), fun _ => ⟨hgone, ?_⟩,
        fun other hother => ?_⟩
      · rw [hothers' name (mapName_ne name).symm]
        exact hnew
      · simp [hold, hdirty', mem_mark]
      · rw [hdirty'] at hother
        exact (mem_mark.1 hother).symm.imp_left (hmarked other)

/-- A script without a line map is stored where no file of its size and no line map is there. -/
theorem stage_of_size_ne (hname : validPath name = true) (hmap : b.map = none)
    (hnone : w.files.lookup (mapName name) = none) (hsize : w.used + b.data.size ≤ quota)
    (hne : ∀ e, w.files.lookup name = some e → e.data.size ≠ b.data.size) :
    stage b name w = .ok (w.written name b.data) := by
  have hfits : w.fits name b.data = true := decide_eq_true (by omega)
  have hwrite := (write_of_fits hname hfits).2 fun e he hpasses => hne e he hpasses.2
  have hbeside : (w.written name b.data).contains (mapName name) = false := by
    have hlookup : (w.written name b.data).files.lookup (mapName name) = _ :=
      lookup_store_of_ne (mapName_ne name) (.ofData b.data)
    rw [contains, hlookup, hnone]
    rfl
  rw [mapName] at hbeside
  rw [stage, hwrite]
  simp only [hmap, bind, Except.bind, hbeside, Bool.false_eq_true, if_false]

/-! ## Loading, staging and persisting -/

/-- A build that succeeds has loaded both names, staged the script and persisted it. -/
theorem writeBuild_built (htree : h.IsTree)
    (hrun : (writeBuild output b : StateM Host _).run h = (.built, h')) :
    let root := Path.parent output
    let name := Path.base output
    let loaded := takeOver h root (takeOver h root {} name) (mapName name)
    validPath name = true ∧ validPath (mapName name) = true ∧
      ∃ staged persisted, stage b name loaded = .ok staged ∧
        (staged.persist root : StateM Host _).run h = ((persisted, none), h') := by
  intro root name loaded
  obtain ⟨⟨w, fault⟩, hload, hloaded⟩ := load_run htree root [name, mapName name] {}
  have hload' : (Workspace.load root [name, name ++ RawText.ofString ".map"] {} :
      StateM Host _).run h = ((w, fault), h) := hload
  rw [writeBuild, run_bind, hload'] at hrun
  cases fault with
  | some e => cases hrun
  | none =>
    obtain ⟨hnames, rfl⟩ := hloaded rfl
    simp only [List.foldl_cons, List.foldl_nil] at hrun
    refine ⟨hnames _ (by simp), hnames _ (by simp), ?_⟩
    cases hstage : stage b name loaded with
    | error e =>
      simp only [name, loaded, root] at hstage
      rw [hstage] at hrun
      cases hrun
    | ok staged =>
      simp only [name, loaded, root] at hstage
      rw [hstage] at hrun
      simp only [run_bind] at hrun
      rcases hpersist : (staged.persist root : StateM Host _).run h with ⟨⟨persisted, _ | e⟩, after⟩
      · simp only [root] at hpersist
        rw [hpersist] at hrun
        obtain ⟨-, rfl⟩ := Prod.mk.inj hrun
        exact ⟨staged, persisted, rfl, hpersist⟩
      · simp only [root] at hpersist
        rw [hpersist] at hrun
        cases (Prod.mk.inj hrun).1

/-- A statement about the entry of a file that was taken over is one about a file that fits. -/
theorem forall_entry_iff {content : Option ByteArray} {fits : ByteArray → Bool}
    {P : ByteArray → Prop} :
    (∀ e, (content.filter fits).map Entry.ofData = some e → P e.data) ↔
      ∀ old, content = some old → fits old = true → P old := by
  cases content with
  | none => simp
  | some data => cases hfits : fits data <;> simp [hfits, Entry.ofData]

/-- A file that is mistaken for content which fits has its size, so it fits and was loaded. -/
theorem forall_mistaken_iff {content : Option ByteArray} {data : ByteArray}
    (hsize : data.size ≤ quota) :
    (∀ e, (content.filter (·.size ≤ quota)).map Entry.ofData = some e → ¬ Mistaken e.data data) ↔
      ∀ old, content = some old → ¬ Mistaken old data := by
  refine (forall_entry_iff (P := fun old => ¬ Mistaken old data)).trans ?_
  refine forall₂_congr fun old _ => ⟨fun hfits hmistaken => ?_, fun hnot _ => hnot⟩
  exact hfits (by simpa [hmistaken.size] using hsize) hmistaken

/-- What a build leaves at the places of its script and its line map. Old files count as far as they
were loaded: the line map after the script. -/
structure Updates (b : Build) (place mapPlace : Location) (h h' : Host) : Prop where
  script : h'.content? place = some b.data ↔
    ∀ old, h.content? place = some old → ¬ Mistaken old b.data
  map : ∀ m, b.map = some m → (h'.content? mapPlace = some m.print.toUTF8 ↔
    ∀ old, h.content? mapPlace = some old → fittingSize h place + old.size ≤ quota →
      ¬ Mistaken old m.print.toUTF8)
  stale : b.map = none → (h'.content? mapPlace = none ↔
    ∀ old, h.content? mapPlace = some old → fittingSize h place + old.size ≤ quota)
  others : ∀ l, l ≠ place → l ≠ mapPlace → h'.file? l = h.file? l

theorem writeBuild_updates (htree : h.IsTree)
    (hrun : (writeBuild output b : StateM Host _).run h = (.built, h')) :
    let root := Path.parent output
    let name := Path.base output
    validPath name = true ∧ validPath (mapName name) = true ∧
      Updates b (placeOf root name) (placeOf root (mapName name)) h h' := by
  intro root name
  obtain ⟨hname, hmapName, staged, persisted, hstage, hpersist⟩ := writeBuild_built htree hrun
  refine ⟨hname, hmapName, ?_⟩
  set first := takeOver h root {} name
  set loaded := takeOver h root first (mapName name)
  have hmirrors : Mirrors h root loaded := ((mirrors_empty h root).takeOver hname).takeOver hmapName
  have holdScript : loaded.files.lookup name =
      ((h.content? (placeOf root name)).filter (·.size ≤ quota)).map Entry.ofData := by
    rw [takeOver_of_ne (mapName_ne name).symm, takeOver_self rfl]
    simp
  have holdMap : loaded.files.lookup (mapName name) =
      ((h.content? (placeOf root (mapName name))).filter fun data =>
        fittingSize h (placeOf root name) + data.size ≤ quota).map Entry.ofData := by
    rw [takeOver_self ((takeOver_of_ne (mapName_ne name)).trans rfl), used_takeOver]
  obtain ⟨hsize, hscript, hmap, hstale, hmarked⟩ :=
    stage_eq_ok hmirrors.consistent hmirrors.unmarked hstage
  have htracks := stage_keeps Workspace.Tracks.write Workspace.Tracks.delete hmirrors.tracks hstage
  have hconsistent := stage_keeps Consistent.write Consistent.delete hmirrors.consistent hstage
  obtain ⟨hfiles, hgone, hothers⟩ := htracks.persist hconsistent htree hpersist
  refine ⟨?_, fun m hm => ?_, fun hnone => ?_, fun l hl hlMap => ?_⟩
  · obtain ⟨e, he, hiff⟩ := hscript
    rw [hfiles name e he, Option.some.injEq, hiff, holdScript, forall_mistaken_iff hsize]
  · obtain ⟨e, he, hiff⟩ := hmap m hm
    rw [hfiles _ e he, Option.some.injEq, hiff, holdMap]
    refine (forall_entry_iff (P := fun old => ¬ Mistaken old m.print.toUTF8)).trans ?_
    simp only [decide_eq_true_eq]
  · obtain ⟨hlookup, hmarkedMap⟩ := hstale hnone
    rw [holdMap] at hmarkedMap
    by_cases hmem : mapName name ∈ staged.dirty
    · refine iff_of_true (hgone _ hmem hlookup) fun old hold => ?_
      simpa [hold, Option.filter_some] using hmarkedMap.1 hmem
    · have hkept : h'.content? (placeOf root (mapName name)) =
          h.content? (placeOf root (mapName name)) := by
        refine congrArg (Option.map Prod.fst) (hothers _ fun other hother heq => ?_)
        rcases hmarked other hother with rfl | rfl
        · exact mapName_ne name (placeOf_injective hmapName hname heq)
        · exact hmem hother
      rw [hkept]
      cases hold : h.content? (placeOf root (mapName name)) with
      | none => simp
      | some old => simpa [hold, Option.filter_some] using mt hmarkedMap.2 hmem
  · refine hothers l fun other hother => ?_
    rcases hmarked other hother with rfl | rfl
    · exact hl
    · exact hlMap

/-! ## Jobs -/

/-- The jobs that commands build: those of the arguments, and one whose script goes to another
directory. -/
inductive Job.Commanded : Job → Prop
  | listed {c : Console} {a : Arguments} {config : Option Config} {js : List Job} {j : Job} :
    jobs c a config = .ok js → j ∈ js → Commanded j
  | moved {j : Job} (directory : RawText) :
    Commanded j → Commanded { j with output := Path.join directory (Path.base j.output) }

theorem jobs_eq_ok {c : Console} {a : Arguments} {config : Option Config} {js : List Job}
    (hjobs : jobs c a config = .ok js) :
    ∃ files, inputs c a config = .ok files ∧ js = files.map (jobFor c a config) ∧
      ((a.text "output").isEmpty = true ∨ files.length ≤ 1) := by
  rw [jobs] at hjobs
  cases hfiles : inputs c a config with
  | error e =>
    rw [hfiles] at hjobs
    cases hjobs
  | ok files =>
    rw [hfiles] at hjobs
    refine ⟨files, rfl, ?_⟩
    change (if _ then _ else _) = _ at hjobs
    split at hjobs
    · cases hjobs
    · next hoption =>
      have hone : (a.text "output").isEmpty = true ∨ files.length ≤ 1 := by
        by_contra hnot
        obtain ⟨houtput, hmany⟩ := not_or.1 hnot
        exact hoption ⟨by simpa using houtput, Nat.not_le.1 hmany⟩
      refine ⟨?_, hone⟩
      split at hjobs
      · split at hjobs
        · cases hjobs
        · exact (Except.ok.inj hjobs).symm
      · exact (Except.ok.inj hjobs).symm

theorem namesFile_resolve (directory p : RawText) : Path.NamesFile (Path.resolve directory p) := by
  rw [Path.resolve]
  split
  · exact Path.namesFile_clean _
  · exact Path.namesFile_clean _

theorem namesFile_join (directory p : RawText) : Path.NamesFile (Path.join directory p) := by
  unfold Path.join
  split
  · split
    · exact fun hslash => absurd hslash (by decide)
    · exact Path.namesFile_clean _
  · exact Path.namesFile_clean _

theorem namesFile_outputFor (c : Console) (a : Arguments) (config : Option Config)
    (input : RawText) : Path.NamesFile (outputFor c a config input) := by
  have hbeside : Path.NamesFile (Path.replaceExtension input ".js") :=
    Path.namesFile_replaceExtension input (by decide) (by decide)
  unfold outputFor
  split
  · exact namesFile_resolve _ _
  · split
    · exact namesFile_resolve _ _
    · exact hbeside

theorem Job.Commanded.namesFile {j : Job} (hj : j.Commanded) : Path.NamesFile j.output := by
  cases hj with
  | listed hjobs hmem =>
    obtain ⟨files, -, rfl, -⟩ := jobs_eq_ok hjobs
    obtain ⟨input, -, rfl⟩ := List.mem_map.1 hmem
    exact namesFile_outputFor _ _ _ input
  | moved directory _ => exact namesFile_join _ _

/-- A name in the directory of a path leads to the path with the end of the name. -/
theorem placeOf_base {p ending : RawText} (hp : Path.NamesFile p)
    (hname : validPath (Path.base p) = true) (hending : validPath (Path.base p ++ ending) = true)
    (hslash : Path.slash ∉ ending.glyphs) :
    placeOf (Path.parent p) (Path.base p ++ ending) = locate (p ++ ending) := by
  obtain ⟨hjoin, happend⟩ := Path.cleanSegments_join_base hp hname hending hslash
  exact hjoin.trans happend.symm

theorem placeOf_base_self {p : RawText} (hp : Path.NamesFile p)
    (hname : validPath (Path.base p) = true) :
    placeOf (Path.parent p) (Path.base p) = locate p := by
  have hempty (r : RawText) : r ++ RawText.ofString "" = r :=
    congrArg RawText.mk (List.append_nil _)
  have hplace := @placeOf_base p "" hp hname ((hempty _).symm ▸ hname) (by decide)
  rwa [hempty, hempty] at hplace

/-- A build leaves the host as it is if the source is rejected. If it succeeds, the output holds the
script and the file beside it the line map, where old content of the same size and checksum does not
pass for them; without a line map no file is left there, unless it did not fit into the workspace.
No other file is changed. -/
theorem Job.build_updates_host {j : Job} (hj : j.Commanded) (source : ByteArray) {h : Host}
    (htree : h.IsTree) :
    let r := (j.build source : StateM Host _).run h
    match compile j.options (Text.decode source) with
    | .error ds => r = (.rejected ds, h)
    | .ok b => r.1 = .built → Updates b (locate j.output) (locate (j.output ++ ".map")) h r.2 := by
  intro r
  cases hcompile : compile j.options (Text.decode source) with
  | error ds =>
    simp only [r, Job.build, hcompile]
    rfl
  | ok b =>
    intro hbuilt
    have hrun : (writeBuild j.output b : StateM Host _).run h = (.built, r.2) := by
      rw [← hbuilt]
      simp only [r, Job.build, hcompile]
      rfl
    obtain ⟨hname, hmapName, hupdates⟩ := writeBuild_updates htree hrun
    have hmapPlace := placeOf_base hj.namesFile hname hmapName (by decide)
    rw [mapName] at hupdates
    rwa [placeOf_base_self hj.namesFile hname, hmapPlace] at hupdates

/-- A build whose steps all succeed. -/
theorem writeBuild_of_steps {loaded staged : Workspace}
    (hload : (Workspace.load (Path.parent output) [Path.base output, Path.base output ++ ".map"] {} :
      StateM Host _).run h = ((loaded, none), h))
    (hstage : stage b (Path.base output) loaded = .ok staged)
    (hpersist : ((staged.persist (Path.parent output) : StateM Host _).run h).1.2 = none) :
    (writeBuild output b : StateM Host _).run h =
      (.built, ((staged.persist (Path.parent output) : StateM Host _).run h).2) := by
  rw [writeBuild, run_bind, hload]
  simp only [hstage, run_bind]
  generalize (persist _ _ : StateM Host _).run h = r at hpersist
  obtain ⟨⟨w, e⟩, after⟩ := r
  obtain rfl : e = none := hpersist
  rfl

/-- The script of a clean source is no longer than a bound on its main function, and no shorter than
the code that looks up its canvas. -/
theorem exists_build_of_check (o : Options) (source : String) (bound : Nat)
    (hcheck : check source = []) (hmap : o.lineMap = false)
    (hcanvas : (Script.escapeQuotes o.canvasId).toList.length ≤ 160)
    (hid : '\n' ∉ o.canvasId.toList) (htick : (Script.tick o.fps).toList.length ≤ 160)
    (hbound : 4 * (40002 + Script.weight
      (Script.blankLine ++ (parse (Token.lex source)).1.mainScript)) ≤ bound) :
    ∃ b, compile o source = .ok b ∧ b.map = none ∧
      (Script.lookup o.canvasId).utf8ByteSize ≤ b.data.size ∧ b.data.size ≤ bound := by
  refine ⟨_, compile_of_check hcheck, ?_, Program.size_lookup_le_build _ hid,
    Nat.le_trans (Program.size_build_le _ hmap hcanvas htick) hbound⟩
  rw [Program.build, if_neg (by simp [hmap])]

theorem writeBuild_over_large_map {old : ByteArray} (hlarge : quota < old.size)
    (hmap : b.map = none) (hsize : b.data.size ≤ quota) :
    ((writeBuild "/a.js" b : StateM Host _).run
      ⟨[([RawText.ofString "a.js.map"], .file old false)]⟩).1 = .built := by
  set h : Host := ⟨[([RawText.ofString "a.js.map"], .file old false)]⟩
  have hload : (Workspace.load (Path.parent "/a.js")
      [Path.base "/a.js", Path.base "/a.js" ++ ".map"] {} : StateM Host _).run h =
        ((({} : Workspace).loadFile "a.js.map" old, none), h) := rfl
  have hskip : ({} : Workspace).loadFile "a.js.map" old = {} := by
    refine if_neg fun hfits => ?_
    have hfits : 0 + old.size ≤ quota := of_decide_eq_true hfits
    omega
  have hstage : stage b (Path.base "/a.js") {} = .ok (written {} "a.js" b.data) :=
    stage_of_size_ne (by decide +kernel) hmap rfl ((Nat.zero_add b.data.size).symm ▸ hsize)
      fun e he => (by cases he)
  have hpersist : (((written {} "a.js" b.data).persist (Path.parent "/a.js") :
      StateM Host _).run h).1.2 = none := by
    rw [persist, show (written {} "a.js" b.data).dirty = [RawText.ofString "a.js"] from rfl,
      List.mergeSort_singleton]
    rfl
  rw [hskip] at hload
  rw [writeBuild_of_steps hload hstage hpersist]

/-- An old line map that is larger than the workspace stays beside a script that has none. -/
theorem Job.build_updates_host_large_map :
    let j : Job := ⟨"/a.mflow", "/a.js", { sourceName := "a.mflow", outputName := "a.js" }⟩
    let h : Host := ⟨[([RawText.ofString "a.js.map"], .file ⟨Array.replicate (quota + 1) 0⟩ false)]⟩
    let source := "let x = 1".toUTF8
    let r := (j.build source : StateM Host _).run h
    ∃ b, compile j.options (Text.decode source) = .ok b ∧ j.Commanded ∧ h.IsTree ∧ r.1 = .built ∧
      b.map = none ∧ r.2.content? (locate "/a.js") = some b.data ∧
      r.2.content? (locate "/a.js.map") ≠ none := by
  intro j h source r
  obtain ⟨b, hcompile, hmap, -, hsize⟩ :=
    exists_build_of_check j.options (Text.decode source) quota (by decide +kernel) rfl
      (by decide +kernel) (by decide +kernel) (by decide +kernel) (by decide +kernel)
  have hjob : j.Commanded := by
    have hjobs : jobs { directory := "/" } { files := ["a.mflow"] } none = .ok [j] := by
      decide +kernel
    exact .listed hjobs (List.mem_singleton_self j)
  have htree : h.IsTree := by
    refine Host.isTree_of_entries fun e he => ?_
    rw [List.mem_singleton.1 he]
    rfl
  have hlarge : quota < (⟨Array.replicate (quota + 1) 0⟩ : ByteArray).size := by
    show quota < (Array.replicate (quota + 1) (0 : UInt8)).size
    rw [Array.size_replicate]
    exact Nat.lt_succ_self quota
  have hbuilt : r.1 = .built := by
    simp only [r, Job.build, hcompile]
    exact writeBuild_over_large_map hlarge hmap hsize
  have hupdates := Job.build_updates_host hjob source htree
  simp only [hcompile] at hupdates
  obtain ⟨hscript, -, hstale, -⟩ := hupdates hbuilt
  refine ⟨b, hcompile, hjob, htree, hbuilt, hmap, hscript.2 fun old hold => ?_, fun hgone => ?_⟩
  · cases hold
  · have hfits : _ + (⟨Array.replicate (quota + 1) 0⟩ : ByteArray).size ≤ quota :=
      (hstale hmap).1 hgone _ rfl
    omega

end Command

end Easel
