import Easel.Proofs.Command.Build
import Easel.Proofs.Workspace.Directory

/-!
# The order of jobs

A job reads its input, its old script and its old line map, and writes the last two.  If they all
lie in one directory, a build depends on nothing else and changes nothing else
(`Job.effect_inStep`).  Jobs of which none writes what another reads or writes do not depend on
their order (`effects_perm`).  This is so for the jobs of one command unless the script of one is
the script or the input of another, or its line map is the input of another:
`buildAll_order_irrelevant`.
-/

namespace Easel.Command

open Host (Alike Keeps InStep)
open Workspace

variable {h h' : Host} {place : Location} {output name input : RawText} {b : Build} {j k : Job}

/-! ## One build -/

/-- A build deletes no directory: only a line map that was loaded, which is a file. -/
theorem Staged.workable {w w' : Workspace} {root : RawText} (hstaged : Staged b name w w')
    (hdirty : w.dirty = []) (htracks : Workspace.Tracks h root w) (hname : IsFileName name)
    (hmapName : IsFileName (mapName name)) :
    Workable h root [name, mapName name] w' w'.dirty where
  mem other hother := by simpa using hstaged.marked other hother
  isFileName other hother := by
    rcases hstaged.marked other hother with rfl | rfl
    · exact hname
    · exact hmapName
  deleted other hother hlookup := by
    rcases hstaged.marked other hother with rfl | rfl
    · obtain ⟨e, he, -⟩ := hstaged.script
      rw [hlookup] at he
      cases he
    · have hnone : b.map = none := by
        cases hmap : b.map with
        | none => rfl
        | some m =>
          obtain ⟨e, he, -⟩ := hstaged.map m hmap
          rw [hlookup] at he
          cases he
      obtain ⟨old, hold⟩ := Option.isSome_iff_exists.1 ((hstaged.stale hnone).2.1 hother)
      have hcontent := htracks _ old hold (by simp [hdirty])
      rw [placeOf, hmapName.placeOf root, Host.content?, Host.file?] at hcontent
      intro hdirectory
      rw [hdirectory] at hcontent
      cases hcontent

theorem slash_not_mem_mapName (hslash : Path.slash ∉ name.glyphs) :
    Path.slash ∉ (mapName name).glyphs := by
  show Path.slash ∉ name.glyphs ++ _
  rw [List.mem_append, not_or]
  exact ⟨hslash, by decide⟩

theorem writeBuild_inStep (hslash : Path.slash ∉ (Path.base output).glyphs)
    (halike : Alike (locate (Path.parent output))
      [Path.base output, mapName (Path.base output)] h h') :
    InStep (locate (Path.parent output)) [Path.base output, mapName (Path.base output)] h
      ((writeBuild output b : StateM Host _).run h)
      ((writeBuild output b : StateM Host _).run h') := by
  have hslashMap := slash_not_mem_mapName hslash
  have hloads : ∀ name ∈ [Path.base output, mapName (Path.base output)],
      name ∈ [Path.base output, mapName (Path.base output)] ∧ Path.slash ∉ name.glyphs := by
    simp [hslash, hslashMap]
  have hload := load_alike halike hloads {}
  obtain ⟨⟨w, fault⟩, hrun, hloaded⟩ := load_run halike.tree (Path.parent output) _ {}
  obtain ⟨r', hrun', -⟩ := load_run halike.tree' (Path.parent output) _ {}
  rw [hrun, hrun'] at hload
  obtain rfl : r' = (w, fault) := hload
  rw [writeBuild, run_bind, run_bind]
  rw [mapName] at hrun hrun'
  rw [hrun, hrun']
  cases fault with
  | some e => exact .pure halike _
  | none =>
    simp only
    cases hstage : stage b (Path.base output) w with
    | error e => exact .pure halike _
    | ok staged =>
      have hnames := (hloaded rfl).1
      obtain ⟨hconsistent, htracks, hdirty⟩ := mirrors_load halike.tree hrun
      have hworkable := (stage_eq_ok hconsistent hdirty hstage).workable hdirty htracks
        ⟨hnames _ (by simp), hslash⟩ ⟨hnames _ (by simp), hslashMap⟩
      obtain ⟨hresult, halike', hkeeps⟩ := persist_inStep halike hworkable
      simp only [run_bind]
      generalize (persist _ staged : StateM Host _).run h = r at hresult halike' hkeeps ⊢
      generalize (persist _ staged : StateM Host _).run h' = r' at hresult halike' ⊢
      obtain ⟨⟨w₁, e⟩, g⟩ := r
      obtain ⟨⟨w₂, e'⟩, g'⟩ := r'
      obtain ⟨-, rfl⟩ := Prod.mk.inj (show (w₂, e') = (w₁, e) from hresult)
      cases e' <;> exact ⟨rfl, halike', hkeeps⟩

/-! ## One job -/

/-- What a job does to a host. -/
def Job.effect (j : Job) (h : Host) : Outcome × Host :=
  match h.readFile j.input with
  | .error e => (.failed (.read e), h)
  | .ok source => (j.build source : StateM Host _).run h

/-- The name of the script of a job. -/
def Job.scriptName (j : Job) : RawText := Path.base j.output

/-- The names under which a job writes. -/
def Job.written (j : Job) : List RawText := [j.scriptName, mapName j.scriptName]

/-- The script of a job goes beside its input, which has a name in a directory. -/
structure Job.SitsIn (j : Job) (place : Location) (name : RawText) : Prop where
  input : locate j.input = place ++ [name]
  parent : locate (Path.parent j.output) = place
  output : locate j.output = place ++ [j.scriptName]
  map : locate (j.output ++ ".map") = place ++ [mapName j.scriptName]
  no_slash : Path.slash ∉ j.scriptName.glyphs
  extension : ∃ stem : RawText, j.scriptName = stem ++ ".js"

theorem Job.SitsIn.effect_inStep (hj : j.SitsIn place name)
    (halike : Alike place (name :: j.written) h h') :
    InStep place j.written h (j.effect h) (j.effect h') := by
  have halike' : Alike place j.written h h' := halike.mono fun s hs => List.mem_cons_of_mem _ hs
  have hread : h'.readFile j.input = h.readFile j.input := by
    rw [Host.readFile, Host.readFile, halike.find List.mem_cons_self hj.input]
  rw [effect, effect, hread]
  cases h.readFile j.input with
  | error e => exact .pure halike' _
  | ok source =>
    simp only [Job.build]
    cases compile j.options (Text.decode source) with
    | error ds => exact .pure halike' _
    | ok b =>
      have hslash : Path.slash ∉ (Path.base j.output).glyphs := hj.no_slash
      have hstep := writeBuild_inStep (b := b) hslash (hj.parent.symm ▸ halike')
      rwa [hj.parent] at hstep

theorem Job.SitsIn.effect_keeps (hj : j.SitsIn place name) (htree : h.IsTree)
    (hplace : h.node? place = some .directory) : Keeps place j.written h (j.effect h).2 := by
  have hself : Alike place (name :: j.written) h h :=
    ⟨htree, htree, hplace, hplace, fun _ _ => rfl⟩
  exact (hj.effect_inStep hself).keeps

/-- A job does the same to hosts with the same nodes. -/
theorem Job.SitsIn.effect_congr (hj : j.SitsIn place name) (htree : h.IsTree) (htree' : h'.IsTree)
    (hplace : h.node? place = some .directory) (hsame : ∀ l, h'.node? l = h.node? l) :
    (j.effect h').1 = (j.effect h).1 ∧ ∀ l, (j.effect h').2.node? l = (j.effect h).2.node? l := by
  have hplace' : h'.node? place = some .directory := (hsame place).trans hplace
  obtain ⟨hresult, halike, hkeeps⟩ :=
    hj.effect_inStep ⟨htree, htree', hplace, hplace', fun s _ => hsame (place ++ [s])⟩
  refine ⟨hresult, fun l => ?_⟩
  by_cases hl : ∃ s ∈ j.written, l = place ++ [s]
  · obtain ⟨s, hs, rfl⟩ := hl
    exact halike.same s hs
  · have hothers : ∀ s ∈ j.written, l ≠ place ++ [s] := fun s hs heq => hl ⟨s, hs, heq⟩
    rw [(hj.effect_keeps htree' hplace').others l hothers, hkeeps.others l hothers, hsame l]

/-! ## Two jobs -/

/-- The script of one job is neither the script nor the input of another, and its line map is not
the input of the other. -/
structure Job.Apart (j k : Job) : Prop where
  script_script : locate j.output ≠ locate k.output
  script_input : locate j.output ≠ locate k.input
  map_input : locate (j.output ++ ".map") ≠ locate k.input

theorem mapName_injective : Function.Injective mapName := by
  intro name name' heq
  have hglyphs : name.glyphs ++ _ = name'.glyphs ++ _ := congrArg RawText.glyphs heq
  exact congrArg RawText.mk (List.append_cancel_right hglyphs)

theorem mapName_ne_script (name stem : RawText) : mapName name ≠ stem ++ ".js" := by
  intro heq
  have hmap : (mapName name).glyphs.getLast? = some (.char 'p') :=
    List.getLast?_append.trans rfl
  have hscript : (stem ++ RawText.ofString ".js").glyphs.getLast? = some (.char 's') :=
    List.getLast?_append.trans rfl
  rw [heq, hscript] at hmap
  exact absurd hmap (by decide)

/-- No line map is the script of another job, and line maps differ where the scripts do. -/
theorem Job.SitsIn.disjoint {place' : Location} {name' : RawText} (hj : j.SitsIn place name)
    (hk : k.SitsIn place' name') (hapart : j.Apart k) :
    ∀ s ∈ j.written, ∀ s' ∈ name' :: k.written, place' ++ [s'] ≠ place ++ [s] := by
  obtain ⟨hscripts, hinput, hmap⟩ := hapart
  rw [hj.output, hk.output] at hscripts
  rw [hj.output, hk.input] at hinput
  rw [hj.map, hk.input] at hmap
  obtain ⟨stem, hstem⟩ := hj.extension
  obtain ⟨stem', hstem'⟩ := hk.extension
  have hsame {s s' : RawText} (heq : place' ++ [s'] = place ++ [s]) : place' = place ∧ s' = s := by
    obtain ⟨hplace, hs⟩ := List.append_inj' heq rfl
    exact ⟨hplace, List.singleton_inj.1 hs⟩
  simp only [Job.written, List.forall_mem_cons, List.not_mem_nil, false_imp_iff, implies_true,
    and_true]
  refine ⟨⟨hinput.symm, hscripts.symm, fun heq => ?_⟩, ⟨hmap.symm, fun heq => ?_, fun heq => ?_⟩⟩
  · exact mapName_ne_script _ stem ((hsame heq).2.trans hstem)
  · exact mapName_ne_script _ stem' ((hsame heq).2.symm.trans hstem')
  · obtain ⟨rfl, hs⟩ := hsame heq
    exact hscripts (by rw [mapName_injective hs])

/-- Two jobs may change places: the outcome of each is the same, and so is the host. -/
theorem Job.effect_comm {place' : Location} {name' : RawText} (hj : j.SitsIn place name)
    (hk : k.SitsIn place' name') (hapart : j.Apart k) (hapart' : k.Apart j) (htree : h.IsTree)
    (hplace : h.node? place = some .directory) (hplace' : h.node? place' = some .directory) :
    (j.effect (k.effect h).2).1 = (j.effect h).1 ∧ (k.effect (j.effect h).2).1 = (k.effect h).1 ∧
      ∀ l, (j.effect (k.effect h).2).2.node? l = (k.effect (j.effect h).2).2.node? l := by
  have hjk := hj.disjoint hk hapart
  have hkj := hk.disjoint hj hapart'
  have hkeeps := hj.effect_keeps htree hplace
  have hkeeps' := hk.effect_keeps htree hplace'
  -- Each job finds what it reads and writes as it would without the other before it.
  have hfirst : Alike place (name :: j.written) h (k.effect h).2 :=
    ⟨htree, hkeeps'.tree, hplace, (hkeeps'.directories place).2 hplace,
      fun s hs => hkeeps'.others _ fun s' hs' => hkj s' hs' s hs⟩
  have hsecond : Alike place' (name' :: k.written) h (j.effect h).2 :=
    ⟨htree, hkeeps.tree, hplace', (hkeeps.directories place').2 hplace',
      fun s hs => hkeeps.others _ fun s' hs' => hjk s' hs' s hs⟩
  obtain ⟨hresult, halike, -⟩ := hj.effect_inStep hfirst
  obtain ⟨hresult', halike', -⟩ := hk.effect_inStep hsecond
  refine ⟨hresult, hresult', fun l => ?_⟩
  have hlast := (hj.effect_inStep hfirst.symm).keeps
  have hlast' := (hk.effect_inStep hsecond.symm).keeps
  by_cases hl : ∃ s ∈ j.written, l = place ++ [s]
  · obtain ⟨s, hs, rfl⟩ := hl
    rw [halike.same s hs,
      hlast'.others _ fun s' hs' => (hjk s hs s' (List.mem_cons_of_mem _ hs')).symm]
  · have hothers : ∀ s ∈ j.written, l ≠ place ++ [s] := fun s hs heq => hl ⟨s, hs, heq⟩
    rw [hlast.others l hothers]
    by_cases hl' : ∃ s ∈ k.written, l = place' ++ [s]
    · obtain ⟨s, hs, rfl⟩ := hl'
      exact (halike'.same s hs).symm
    · have hothers' : ∀ s ∈ k.written, l ≠ place' ++ [s] := fun s hs heq => hl' ⟨s, hs, heq⟩
      rw [hkeeps'.others l hothers', hlast'.others l hothers', hkeeps.others l hothers]

/-! ## Lists of jobs -/

/-- What jobs do to a host one after another. -/
def effects : List Job → Host → List (Job × Outcome) × Host
  | [], h => ([], h)
  | j :: rest, h =>
    let more := effects rest (j.effect h).2
    ((j, (j.effect h).1) :: more.1, more.2)

/-- The jobs sit in directories of a host. -/
def Seated (h : Host) (js : List Job) : Prop :=
  ∀ j ∈ js, ∃ place name, j.SitsIn place name ∧ h.node? place = some .directory

theorem Seated.effect {js : List Job} (hseated : Seated h (j :: js)) (htree : h.IsTree) :
    (j.effect h).2.IsTree ∧ Seated (j.effect h).2 js := by
  obtain ⟨place, name, hj, hplace⟩ := hseated j List.mem_cons_self
  have hkeeps := hj.effect_keeps htree hplace
  refine ⟨hkeeps.tree, fun k hk => ?_⟩
  obtain ⟨place', name', hk, hplace'⟩ := hseated k (List.mem_cons_of_mem _ hk)
  exact ⟨place', name', hk, (hkeeps.directories place').2 hplace'⟩

theorem effects_congr {js : List Job} (hseated : Seated h js) (htree : h.IsTree)
    (htree' : h'.IsTree) (hsame : ∀ l, h'.node? l = h.node? l) :
    (effects js h').1 = (effects js h).1 ∧
      ∀ l, (effects js h').2.node? l = (effects js h).2.node? l := by
  induction js generalizing h h' with
  | nil => exact ⟨rfl, hsame⟩
  | cons j rest ih =>
    have hseated' : Seated h' (j :: rest) := fun k hk => by
      obtain ⟨place, name, hk, hplace⟩ := hseated k hk
      exact ⟨place, name, hk, (hsame place).trans hplace⟩
    obtain ⟨place, name, hj, hplace⟩ := hseated j List.mem_cons_self
    obtain ⟨hresult, hnodes⟩ := hj.effect_congr htree htree' hplace hsame
    obtain ⟨hrest, hfinal⟩ := ih (hseated.effect htree).2 (hseated.effect htree).1
      (hseated'.effect htree').1 hnodes
    rw [effects, effects]
    exact ⟨by rw [hresult, hrest], hfinal⟩

/-- Jobs that are apart from each other do the same in any order. -/
theorem effects_perm {js js' : List Job} (hperm : js'.Perm js) (hseated : Seated h js)
    (hapart : ∀ j ∈ js, ∀ k ∈ js, j ≠ k → j.Apart k) (htree : h.IsTree) :
    (effects js' h).1.Perm (effects js h).1 ∧
      ∀ l, (effects js' h).2.node? l = (effects js h).2.node? l := by
  induction hperm generalizing h with
  | nil => exact ⟨.nil, fun _ => rfl⟩
  | cons j _ ih =>
    obtain ⟨hrest, hfinal⟩ := ih (hseated.effect htree).2
      (fun i hi k hk => hapart i (List.mem_cons_of_mem _ hi) k (List.mem_cons_of_mem _ hk))
      (hseated.effect htree).1
    exact ⟨hrest.cons _, hfinal⟩
  | swap j k rest =>
    by_cases hjk : j = k
    · subst hjk
      exact ⟨.refl _, fun _ => rfl⟩
    · have hswapped : Seated h (k :: j :: rest) :=
        fun i hi => hseated i ((List.Perm.swap j k rest).subset hi)
      obtain ⟨place, name, hj, hplace⟩ := hseated j List.mem_cons_self
      obtain ⟨place', name', hk, hplace'⟩ := hseated k (by simp)
      obtain ⟨hfirst, hsecond, hnodes⟩ := Job.effect_comm hj hk (hapart j (by simp) k (by simp) hjk)
        (hapart k (by simp) j (by simp) (Ne.symm hjk)) htree hplace hplace'
      obtain ⟨htree₁, hseated₁⟩ := hseated.effect htree
      obtain ⟨htree₂, hseated₂⟩ := hseated₁.effect htree₁
      obtain ⟨htree₁', hseated₁'⟩ := hswapped.effect htree
      obtain ⟨hrest, hfinal⟩ := effects_congr hseated₂ htree₂ (hseated₁'.effect htree₁').1 hnodes
      refine ⟨?_, hfinal⟩
      simp only [effects, hfirst, hsecond, hrest]
      exact .swap _ _ _
  | trans _ hperm ih ih' =>
    obtain ⟨houtcomes, hnodes⟩ := ih (fun j hj => hseated j (hperm.subset hj))
      (fun j hj k hk => hapart j (hperm.subset hj) k (hperm.subset hk)) htree
    obtain ⟨houtcomes', hnodes'⟩ := ih' hseated hapart htree
    exact ⟨houtcomes.trans houtcomes', fun l => (hnodes l).trans (hnodes' l)⟩

/-! ## The jobs of a command -/

/-- A job whose output is its input with another extension sits in the directory of its input. -/
theorem Job.sitsIn_of_extension {p : RawText} (hinput : j.input = Path.clean p)
    (houtput : j.output = Path.replaceExtension j.input ".js") (hne : Path.cleanSegments p ≠ []) :
    ∃ place name, j.SitsIn place name := by
  obtain ⟨front, last, hclean, hfront, hlast, -, hsegments⟩ := Path.exists_front_clean hne
  obtain ⟨stem, hstem, hreplaced⟩ := Path.replaceExtension_eq hfront hlast ".js"
  set script := stem ++ (RawText.ofString ".js").glyphs
  have hscript : j.output = ⟨front ++ script⟩ := by
    rw [houtput, hinput, hclean, hreplaced]
  have hslash : Path.slash ∉ script := by
    rw [List.mem_append, not_or]
    exact ⟨fun hmem => hlast (hstem.subset hmem), by decide⟩
  have hbase : j.scriptName = ⟨script⟩ := by
    rw [scriptName, hscript, Path.base_eq hfront hslash (by simp [script, RawText.ofString])]
  have hmapSlash : Path.slash ∉ script ++ (RawText.ofString ".map").glyphs := by
    rw [List.mem_append, not_or]
    exact ⟨hslash, by decide⟩
  have hplain : Path.IsPlain ⟨script⟩ :=
    Path.isPlain_of_getLast hslash (List.getLast?_append.trans rfl) (by decide : 's' ≠ '.')
  have hmapPlain : Path.IsPlain ⟨script ++ (RawText.ofString ".map").glyphs⟩ :=
    Path.isPlain_of_getLast hmapSlash (List.getLast?_append.trans rfl) (by decide : 'p' ≠ '.')
  have hmap : j.output ++ RawText.ofString ".map" =
      ⟨front ++ (script ++ (RawText.ofString ".map").glyphs)⟩ := by
    rw [hscript]
    exact congrArg RawText.mk (List.append_assoc front script _)
  refine ⟨Path.cleanSegments ⟨front⟩, ⟨last⟩, ?_, ?_, ?_, ?_, ?_, ⟨stem⟩, hbase⟩
  · rw [locate, hinput, Path.cleanSegments_clean, hsegments]
  · rw [locate, hscript, Path.cleanSegments_parent hfront hslash]
  · rw [hbase, locate, hscript, Path.cleanSegments_append hfront hplain]
  · rw [hbase, hmap, locate, Path.cleanSegments_append hfront hmapPlain]
    rfl
  · rw [hbase]
    exact hslash

theorem exists_path_eq_clean (c : Console) (p : RawText) : ∃ q, c.path p = Path.clean q := by
  unfold Console.path Path.resolve
  split
  · exact ⟨_, rfl⟩
  · exact ⟨_, rfl⟩

/-- The jobs of a command are at most one, or their outputs are named after their inputs. -/
theorem jobs_cases {c : Console} {a : Arguments} {config : Option Config} {js : List Job}
    (hjobs : jobs c a config = .ok js) :
    js.length ≤ 1 ∨ ∀ j ∈ js, (∃ p, j.input = Path.clean p) ∧
      j.output = Path.replaceExtension j.input ".js" := by
  obtain ⟨files, hfiles, rfl, hone⟩ := jobs_eq_ok hjobs
  rw [List.length_map]
  refine (Nat.lt_or_ge 1 files.length).symm.imp id fun hmany => ?_
  have hbeside := hone.resolve_right (Nat.not_le.2 hmany)
  rw [inputs.eq_def] at hfiles
  cases hargs : a.files with
  | nil =>
    rw [hargs] at hfiles
    cases config with
    | none => cases hfiles
    | some config =>
      rw [← Except.ok.inj hfiles] at hmany
      exact absurd hmany (by simp)
  | cons file rest =>
    rw [hargs] at hfiles
    intro j hj
    obtain ⟨input, hinput, rfl⟩ := List.mem_map.1 hj
    rw [← Except.ok.inj hfiles] at hinput
    obtain ⟨named, -, rfl⟩ := List.mem_map.1 hinput
    refine ⟨exists_path_eq_clean c named, ?_⟩
    simp only [jobFor, outputFor, hbeside, hargs]
    rfl

/-! ## Desktops -/

theorem onHost_bind {α β : Type} (x : StateM Host α) (f : α → StateM Host β) :
    Desktop.onHost (x >>= f) = Desktop.onHost x >>= fun a => Desktop.onHost (f a) := rfl

theorem loadOne_onHost (root name : RawText) (w : Workspace) :
    (loadOne root name w : StateM Desktop _) = Desktop.onHost (loadOne root name w) := by
  unfold loadOne
  split
  · rfl
  · rw [onHost_bind]
    refine bind_congr fun stat => ?_
    rcases stat with e | _ | _
    · rfl
    · dsimp only
      rw [onHost_bind]
      refine bind_congr fun content => ?_
      cases content <;> rfl
    · rfl

theorem load_onHost (root : RawText) (names : List RawText) (w : Workspace) :
    (Workspace.load root names w : StateM Desktop _) =
      Desktop.onHost (Workspace.load root names w) := by
  induction names generalizing w with
  | nil => rfl
  | cons name rest ih =>
    rw [Workspace.load, Workspace.load, onHost_bind, loadOne_onHost]
    refine bind_congr fun r => ?_
    cases r with
    | error e => rfl
    | ok w' => exact ih w'

theorem persistName_onHost (root : RawText) (w : Workspace) (name : RawText) :
    (persistName root w name : StateM Desktop _) = Desktop.onHost (persistName root w name) := by
  unfold persistName
  split
  · unfold persistFile
    dsimp only
    rw [onHost_bind]
    refine bind_congr fun made => ?_
    cases made with
    | error e => rfl
    | ok _ =>
      dsimp only
      rw [onHost_bind]
      refine bind_congr fun written => ?_
      cases written <;> rfl
  · unfold persistRemoval
    rw [onHost_bind]
    refine bind_congr fun removed => ?_
    cases removed <;> rfl

theorem persistEach_onHost (root : RawText) (w : Workspace) (names : List RawText) :
    (persistEach root w names : StateM Desktop _) = Desktop.onHost (persistEach root w names) := by
  induction names with
  | nil => rfl
  | cons name rest ih =>
    rw [persistEach, persistEach, onHost_bind, persistName_onHost]
    refine bind_congr fun failure => ?_
    rw [onHost_bind, ih]
    rfl

theorem persist_onHost (root : RawText) (w : Workspace) :
    (w.persist root : StateM Desktop _) = Desktop.onHost (w.persist root) := by
  unfold persist persistInOrder
  rw [onHost_bind]
  refine bind_congr fun made => ?_
  cases made with
  | error e => rfl
  | ok _ =>
    dsimp only
    rw [onHost_bind, persistEach_onHost]
    rfl

theorem writeBuild_onHost (output : RawText) (b : Build) :
    (writeBuild output b : StateM Desktop _) = Desktop.onHost (writeBuild output b) := by
  unfold writeBuild
  dsimp only
  rw [onHost_bind, load_onHost]
  refine bind_congr fun r => ?_
  obtain ⟨w, _ | e⟩ := r
  · dsimp only
    cases stage b (Path.base output) w with
    | error e => rfl
    | ok staged =>
      dsimp only
      rw [onHost_bind, persist_onHost]
      refine bind_congr fun r => ?_
      obtain ⟨w', _ | e⟩ := r <;> rfl
  · rfl

theorem Job.build_onHost (j : Job) (source : ByteArray) :
    (j.build source : StateM Desktop _) = Desktop.onHost (j.build source) := by
  unfold Job.build
  cases compile j.options (Text.decode source) with
  | error ds => rfl
  | ok b => exact writeBuild_onHost j.output b

theorem host_logAll (c : Console) (ls : List LogLine) (d : Desktop) :
    ((c.logAll ls : StateM Desktop Unit).run d).2.host = d.host := by
  induction ls generalizing d with
  | nil => rfl
  | cons l rest ih =>
    have hlog : ((c.log l : StateM Desktop Unit).run d).2.host = d.host := by
      unfold Console.log
      split <;> rfl
    rw [Console.logAll, run_bind, ih, hlog]

/-- What a job does at a desktop is what it does to the host, whatever is logged. -/
theorem Job.run_buildFile (j : Job) (c : Console) (d : Desktop) :
    let r := (j.buildFile c : StateM Desktop _).run d
    r.1 = (j.effect d.host).1 ∧ r.2.host = (j.effect d.host).2 := by
  have hread : (HostAccess.readFile j.input : StateM Desktop _).run d =
      (d.host.readFile j.input, d) := rfl
  rw [Job.buildFile, run_bind, hread, effect]
  cases d.host.readFile j.input with
  | error e => exact ⟨rfl, rfl⟩
  | ok source =>
    dsimp only
    have hrun (d' : Desktop) : (Desktop.onHost (j.build source)).run d' =
        (((j.build source : StateM Host _).run d'.host).1,
          { d' with host := ((j.build source : StateM Host _).run d'.host).2 }) := rfl
    rw [Job.buildLogged, run_bind, Job.build_onHost, hrun, host_logAll]
    exact ⟨rfl, rfl⟩

theorem run_buildAll (c : Console) (js : List Job) (d : Desktop) :
    let r := (buildAll c js : StateM Desktop _).run d
    r.1 = (effects js d.host).1 ∧ r.2.host = (effects js d.host).2 := by
  induction js generalizing d with
  | nil => exact ⟨rfl, rfl⟩
  | cons j rest ih =>
    obtain ⟨houtcome, hhost⟩ := j.run_buildFile c d
    obtain ⟨hrest, hfinal⟩ := ih ((j.buildFile c : StateM Desktop _).run d).2
    rw [hhost] at hrest hfinal
    rw [buildAll, run_bind, run_bind, effects]
    refine ⟨?_, hfinal⟩
    rw [houtcome, hrest]
    rfl

theorem eq_of_perm_of_length_le_one {α : Type} {xs ys : List α} (hperm : ys.Perm xs)
    (hlength : xs.length ≤ 1) : ys = xs := by
  rcases xs with _ | ⟨x, _ | ⟨x', rest⟩⟩
  · exact hperm.eq_nil
  · exact List.perm_singleton.1 hperm
  · exact absurd hlength (by simp)

/-- The jobs of a command on files that are there may be built in any order, with the same outcome
for each and the same host, unless the script of one is the script or the input of another or its
line map is the input of another. -/
theorem buildAll_order_irrelevant {c : Console} {a : Arguments} {config : Option Config}
    {js js' : List Job} (hjobs : jobs c a config = .ok js) (hperm : js'.Perm js) {d : Desktop}
    (htree : d.host.IsTree) (hinputs : ∀ j ∈ js, ∃ f, d.host.file? (locate j.input) = some f)
    (hapart : ∀ j ∈ js, ∀ k ∈ js, j ≠ k → j.Apart k) :
    let r := (buildAll c js : StateM Desktop _).run d
    let r' := (buildAll c js' : StateM Desktop _).run d
    r'.1.Perm r.1 ∧ ∀ l, r'.2.host.node? l = r.2.host.node? l := by
  intro r r'
  rcases jobs_cases hjobs with hone | hbeside
  · obtain rfl := eq_of_perm_of_length_le_one hperm hone
    exact ⟨.refl _, fun _ => rfl⟩
  · have hseated : Seated d.host js := by
      intro j hj
      obtain ⟨⟨p, hinput⟩, houtput⟩ := hbeside j hj
      obtain ⟨⟨data, aged⟩, hfile⟩ := hinputs j hj
      have hnode := Host.file?_eq_some_iff.1 hfile
      have hne : Path.cleanSegments p ≠ [] := by
        intro hnil
        rw [hinput, locate, Path.cleanSegments_clean, hnil, Host.node?_nil] at hnode
        cases hnode
      obtain ⟨place, name, hsits⟩ := Job.sitsIn_of_extension hinput houtput hne
      rw [hsits.input] at hnode
      exact ⟨place, name, hsits, htree _ _ _ hnode⟩
    obtain ⟨houtcomes, hnodes⟩ := effects_perm hperm hseated hapart htree
    obtain ⟨hresult, hhost⟩ := run_buildAll c js d
    obtain ⟨hresult', hhost'⟩ := run_buildAll c js' d
    exact ⟨hresult ▸ hresult' ▸ houtcomes, fun l => hhost ▸ hhost' ▸ hnodes l⟩

/-- Two files of which one is named twice. -/
theorem buildAll_order_irrelevant_twice :
    let c : Console := { directory := "/" }
    let job (file script : String) : Job :=
      ⟨"/" ++ file, "/" ++ script, { sourceName := file, outputName := script }⟩
    let x := job "a.mflow" "a.js"
    let y := job "b.mflow" "b.js"
    let d : Desktop := { host := ⟨[([RawText.ofString "a.mflow"], .file "let x = 1".toUTF8 false),
      ([RawText.ofString "b.mflow"], .file "let".toUTF8 false)]⟩ }
    jobs c { files := ["a.mflow", "b.mflow", "a.mflow"] } none = .ok [x, y, x] ∧ d.host.IsTree ∧
      x.Apart y ∧ y.Apart x ∧
      let r := (buildAll c [x, y, x] : StateM Desktop _).run d
      let r' := (buildAll c [y, x, x] : StateM Desktop _).run d
      r'.1.Perm r.1 ∧ ∀ l, r'.2.host.node? l = r.2.host.node? l := by
  intro c job x y d
  have hjobs : jobs c { files := ["a.mflow", "b.mflow", "a.mflow"] } none = .ok [x, y, x] := by
    decide +kernel
  have htree : d.host.IsTree := Host.isTree_of_entries (by decide +kernel)
  have hxy : x.Apart y := ⟨by decide +kernel, by decide +kernel, by decide +kernel⟩
  have hyx : y.Apart x := ⟨by decide +kernel, by decide +kernel, by decide +kernel⟩
  have hinputs : ∀ j ∈ [x, y, x], ∃ f, d.host.file? (locate j.input) = some f := by
    have hfound : ∀ j ∈ [x, y, x], (d.host.file? (locate j.input)).isSome = true := by
      decide +kernel
    exact fun j hj => Option.isSome_iff_exists.1 (hfound j hj)
  have hapart : ∀ j ∈ [x, y, x], ∀ k ∈ [x, y, x], j ≠ k → j.Apart k := by
    have hcases : ∀ j ∈ [x, y, x], j = x ∨ j = y := List.forall_mem_cons.2
      ⟨.inl rfl, List.forall_mem_cons.2 ⟨.inr rfl, List.forall_mem_singleton.2 (.inl rfl)⟩⟩
    intro j hj k hk hne
    rcases hcases j hj with hj | hj <;> rcases hcases k hk with hk | hk
    · exact absurd (hj.trans hk.symm) hne
    · rw [hj, hk]
      exact hxy
    · rw [hj, hk]
      exact hyx
    · exact absurd (hj.trans hk.symm) hne
  exact ⟨hjobs, htree, hxy, hyx,
    buildAll_order_irrelevant (d := d) hjobs (List.Perm.swap x y [x]) htree hinputs hapart⟩

end Easel.Command
