import Easel.Proofs.Host.Directory
import Easel.Proofs.Path.Names
import Easel.Proofs.Workspace.Exchange

/-!
# Workspaces and one directory

Loading and persisting names without slashes is work in the directory of the root.  On two hosts
that look alike there, loading gives the same workspace (`load_alike`) and persisting goes in step
(`persist_inStep`), provided that no deleted name is that of a directory.
-/

namespace Easel.Workspace

open Host (Alike Keeps InStep)

variable {h h' : Host} {root name : RawText} {w : Workspace} {names marked : List RawText}

/-- The name leads to a place in the directory of any root. -/
structure IsFileName (name : RawText) : Prop where
  valid : validPath name = true
  no_slash : Path.slash ∉ name.glyphs

theorem IsFileName.placeOf (hname : IsFileName name) (root : RawText) :
    locate (Path.join root name) = locate root ++ [name] := by
  rw [locate, Path.cleanSegments_join root hname.valid, Path.split_of_no_slash hname.no_slash]
  rfl

theorem IsFileName.parent (hname : IsFileName name) (root : RawText) :
    locate (Path.parent (Path.join root name)) = locate root :=
  Path.cleanSegments_parent_join root hname.valid hname.no_slash

/-! ## Loading -/

theorem loadOne_alike (halike : Alike (locate root) names h h') (hmem : name ∈ names)
    (hslash : Path.slash ∉ name.glyphs) (w : Workspace) :
    ((loadOne root name w : StateM Host _).run h').1 =
      ((loadOne root name w : StateM Host _).run h).1 := by
  by_cases hname : validPath name = true
  · have hfind := halike.find hmem (IsFileName.placeOf ⟨hname, hslash⟩ root)
    have hstat (h : Host) : (HostAccess.stat (Path.join root name) : StateM Host _).run h =
        (h.stat (Path.join root name), h) := rfl
    have hread (h : Host) : (HostAccess.readFile (Path.join root name) : StateM Host _).run h =
        (h.readFile (Path.join root name), h) := rfl
    rw [loadOne, if_neg (by simp [hname]), run_bind, run_bind, hstat, hstat, Host.stat, Host.stat,
      hfind]
    rcases hnode : h.find (Path.join root name) with cause | ⟨data, aged⟩ | _
    · rfl
    · simp only [run_bind, hread, Host.readFile, hfind, hnode]
      rfl
    · rfl
  · rw [loadOne, if_pos (by simp [hname])]
    rfl

theorem load_alike (halike : Alike (locate root) names h h') {loaded : List RawText}
    (hloaded : ∀ name ∈ loaded, name ∈ names ∧ Path.slash ∉ name.glyphs) (w : Workspace) :
    ((load root loaded w : StateM Host _).run h').1 =
      ((load root loaded w : StateM Host _).run h).1 := by
  induction loaded generalizing w with
  | nil => rfl
  | cons name rest ih =>
    obtain ⟨⟨hmem, hslash⟩, hrest⟩ := List.forall_mem_cons.1 hloaded
    have hone := loadOne_alike halike hmem hslash w
    obtain ⟨r, hrun, -⟩ := loadOne_run halike.tree root name w
    obtain ⟨r', hrun', -⟩ := loadOne_run halike.tree' root name w
    rw [hrun, hrun'] at hone
    obtain rfl : r' = r := hone
    rw [load, run_bind, run_bind, hrun, hrun']
    cases r' with
    | error e => rfl
    | ok w' => exact ih hrest w'

/-! ## Persisting -/

/-- Work in step goes on in step where what follows leaves the host alone. -/
theorem inStep_bind {α β : Type} {place : Location} {x : StateM Host α} {f : α → StateM Host β}
    (hx : InStep place names h (x.run h) (x.run h')) (hf : ∀ a, ∃ b, ∀ g, (f a).run g = (b, g)) :
    InStep place names h ((x >>= f).run h) ((x >>= f).run h') := by
  obtain ⟨hresult, halike, hkeeps⟩ := hx
  obtain ⟨b, hb⟩ := hf (x.run h).1
  rw [run_bind, run_bind, hresult, hb, hb]
  exact ⟨rfl, halike, hkeeps⟩

theorem persistRemoval_inStep (halike : Alike (locate root) names h h') (hmem : name ∈ names)
    (hname : IsFileName name) (hnode : h.node? (locate root ++ [name]) ≠ some .directory) :
    InStep (locate root) names h ((persistRemoval root name : StateM Host _).run h)
      ((persistRemoval root name : StateM Host _).run h') := by
  refine inStep_bind (x := HostAccess.remove (Path.join root name))
    (halike.inStep_remove hmem (hname.placeOf root) hnode) fun e => ?_
  cases e <;> exact ⟨_, fun _ => rfl⟩

theorem persistFile_inStep (halike : Alike (locate root) names h h') (hmem : name ∈ names)
    (hname : IsFileName name) (data : ByteArray) :
    InStep (locate root) names h ((persistFile root name data : StateM Host _).run h)
      ((persistFile root name data : StateM Host _).run h') := by
  have hmake (h : Host) : (HostAccess.makeDirs (Path.parent (Path.join root name)) :
      StateM Host _).run h = h.makeDirs (Path.parent (Path.join root name)) := rfl
  rw [persistFile, run_bind, run_bind, hmake, hmake,
    halike.tree.makeDirs_of_directory (hname.parent root ▸ halike.directory),
    halike.tree'.makeDirs_of_directory (hname.parent root ▸ halike.directory')]
  refine inStep_bind (x := HostAccess.writeFile (Path.join root name) data)
    (halike.inStep_writeFile hmem (hname.placeOf root) data) fun e => ?_
  cases e <;> exact ⟨_, fun _ => rfl⟩

theorem persistName_inStep (halike : Alike (locate root) names h h') (hmem : name ∈ names)
    (hname : IsFileName name)
    (hnode : w.files.lookup name = none → h.node? (locate root ++ [name]) ≠ some .directory) :
    InStep (locate root) names h ((persistName root w name : StateM Host _).run h)
      ((persistName root w name : StateM Host _).run h') := by
  rw [persistName]
  cases hlookup : w.files.lookup name with
  | some e => exact persistFile_inStep halike hmem hname e.data
  | none => exact persistRemoval_inStep halike hmem hname (hnode hlookup)

/-- The marked names lie in the directory of the root, and no deleted one is that of a directory. -/
structure Workable (h : Host) (root : RawText) (names : List RawText) (w : Workspace)
    (marked : List RawText) : Prop where
  mem : ∀ name ∈ marked, name ∈ names
  isFileName : ∀ name ∈ marked, IsFileName name
  deleted : ∀ name ∈ marked, w.files.lookup name = none →
    h.node? (locate root ++ [name]) ≠ some .directory

theorem persistEach_inStep (halike : Alike (locate root) names h h')
    (hmarked : Workable h root names w marked) :
    InStep (locate root) names h ((persistEach root w marked : StateM Host _).run h)
      ((persistEach root w marked : StateM Host _).run h') := by
  induction marked generalizing h h' with
  | nil => exact .pure halike _
  | cons name rest ih =>
    obtain ⟨hmem, hnames, hdeleted⟩ := hmarked
    obtain ⟨hresult, halike', hkeeps⟩ := persistName_inStep halike (hmem _ List.mem_cons_self)
      (hnames _ List.mem_cons_self) (hdeleted _ List.mem_cons_self)
    have hrest := ih halike' ⟨fun n hn => hmem n (List.mem_cons_of_mem _ hn),
      fun n hn => hnames n (List.mem_cons_of_mem _ hn), fun n hn hlookup hdirectory =>
        hdeleted n (List.mem_cons_of_mem _ hn) hlookup ((hkeeps.directories _).1 hdirectory)⟩
    rw [persistEach_cons, persistEach_cons]
    refine ⟨?_, hrest.alike, hkeeps.trans hrest.keeps⟩
    simp only [hresult, hrest.result]

theorem persist_inStep (halike : Alike (locate root) names h h')
    (hmarked : Workable h root names w w.dirty) :
    InStep (locate root) names h ((w.persist root : StateM Host _).run h)
      ((w.persist root : StateM Host _).run h') := by
  have hperm := (w.perm_deletedFirst _).trans (List.mergeSort_perm w.dirty RawText.precedes)
  have hordered : Workable h root names w (w.deletedFirst (w.dirty.mergeSort RawText.precedes)) :=
    ⟨fun n hn => hmarked.mem n (hperm.subset hn),
      fun n hn => hmarked.isFileName n (hperm.subset hn),
      fun n hn => hmarked.deleted n (hperm.subset hn)⟩
  obtain ⟨hresult, halike', hkeeps⟩ := persistEach_inStep halike hordered
  have hmake (h : Host) : (HostAccess.makeDirs root : StateM Host _).run h = h.makeDirs root := rfl
  have hroot := halike.tree.makeDirs_of_directory halike.directory
  have hroot' := halike.tree'.makeDirs_of_directory halike.directory'
  rw [persist, persistInOrder_of_ok ((hmake h).trans hroot),
    persistInOrder_of_ok ((hmake h').trans hroot')]
  exact ⟨by simp only [hresult], halike', hkeeps⟩

end Easel.Workspace
