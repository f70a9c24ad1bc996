import Easel.Proofs.Workspace.Persist

/-!
# A workspace between loading and persisting

Loading takes over what the host holds under the names, as far as it fits, and leaves the host as it
is (`load_run`).  A workspace tracks a host if every file it has unmarked is there with the same
content (`Tracks`).  Loading establishes this, edits keep it, and a persist without an error then
leaves every file of the workspace on the host (`Tracks.persist`).
-/

namespace Easel

/-- The content of the file at a location. -/
def Host.content? (h : Host) (l : Location) : Option ByteArray := (h.file? l).map Prod.fst

theorem Host.IsTree.content_of_readFile {h : Host} (htree : h.IsTree) {path : RawText}
    {data : ByteArray} (hread : h.readFile path = .ok data) :
    h.content? (locate path) = some data := by
  obtain ⟨-, aged, hfile⟩ := htree.readFile_eq_ok_iff.1 hread
  rw [content?, hfile]
  rfl

namespace Workspace

variable {h h' : Host} {root name name' : RawText} {w w' : Workspace} {data : ByteArray}
  {names : List RawText}

/-! ## Loading -/

/-- The workspace with the file of a host that a name leads to, as far as it fits. -/
def takeOver (h : Host) (root : RawText) (w : Workspace) (name : RawText) : Workspace :=
  (h.content? (placeOf root name)).elim w (w.loadFile name)

theorem loadOne_run (htree : h.IsTree) (root name : RawText) (w : Workspace) :
    ∃ r, (loadOne root name w : StateM Host _).run h = (r, h) ∧
      ∀ w', r = .ok w' → validPath name = true ∧ w' = takeOver h root w name := by
  by_cases hname : validPath name = true
  · have hstat : (HostAccess.stat (Path.join root name) : StateM Host _).run h =
        (h.stat (Path.join root name), h) := rfl
    have hread : (HostAccess.readFile (Path.join root name) : StateM Host _).run h =
        (h.readFile (Path.join root name), h) := rfl
    rw [loadOne, if_neg (by simp [hname]), run_bind, hstat, Host.stat]
    cases hfind : h.find (Path.join root name) with
    | ok node =>
      obtain ⟨-, hnode⟩ := htree.find_eq_ok_iff.1 hfind
      rw [← placeOf] at hnode
      cases node with
      | directory =>
        refine ⟨.ok w, rfl, fun w' hw' => ⟨hname, ?_⟩⟩
        rw [takeOver, Host.content?, Host.file?, hnode]
        exact (Except.ok.inj hw').symm
      | file data aged =>
        simp only [run_bind, hread, Host.readFile, hfind]
        refine ⟨.ok (w.loadFile name data), rfl, fun w' hw' => ⟨hname, ?_⟩⟩
        rw [takeOver, Host.content?, Host.file?_eq_some_iff.2 hnode]
        exact (Except.ok.inj hw').symm
    | error cause =>
      by_cases hmissing : cause = .missing
      · subst hmissing
        refine ⟨.ok w, rfl, fun w' hw' => ⟨hname, ?_⟩⟩
        rw [takeOver, Host.content?, Host.file?, placeOf, htree.node?_of_find_missing hfind]
        exact (Except.ok.inj hw').symm
      · refine ⟨_, rfl, fun w' hw' => ?_⟩
        simp only [hmissing, if_false] at hw'
        cases hw'
  · rw [loadOne, if_pos (by simp [hname])]
    exact ⟨_, rfl, fun w' hw' => by cases hw'⟩

/-- Loading leaves the host as it is. Without an error, the workspace takes over one name after
another. -/
theorem load_run (htree : h.IsTree) (root : RawText) (names : List RawText) (w : Workspace) :
    ∃ r, (load root names w : StateM Host _).run h = (r, h) ∧
      (r.2 = none → (∀ name ∈ names, validPath name = true) ∧
        r.1 = names.foldl (takeOver h root) w) := by
  induction names generalizing w with
  | nil => exact ⟨_, rfl, fun _ => ⟨by simp, rfl⟩⟩
  | cons name rest ih =>
    obtain ⟨r, hone, hr⟩ := loadOne_run htree root name w
    rw [load, run_bind, hone]
    cases r with
    | error e => exact ⟨_, rfl, fun hnone => by cases hnone⟩
    | ok w' =>
      obtain ⟨hname, rfl⟩ := hr w' rfl
      obtain ⟨r, hrest, hr⟩ := ih (takeOver h root w name)
      refine ⟨r, hrest, fun hnone => ?_⟩
      obtain ⟨hnames, hfold⟩ := hr hnone
      exact ⟨List.forall_mem_cons.2 ⟨hname, hnames⟩, hfold⟩

theorem lookup_store_self (e : Entry) : (w.store name e).files.lookup name = some e :=
  List.lookup_cons_self

theorem lookup_store_of_ne (hne : name' ≠ name) (e : Entry) :
    (w.store name e).files.lookup name' = w.files.lookup name' :=
  lookup_put_of_ne hne

theorem takeOver_of_ne (hne : name' ≠ name) :
    (takeOver h root w name).files.lookup name' = w.files.lookup name' := by
  rw [takeOver]
  cases h.content? (placeOf root name) with
  | none => rfl
  | some data =>
    show (w.loadFile name data).files.lookup name' = _
    unfold loadFile
    split
    · exact lookup_store_of_ne hne _
    · rfl

/-- A name that the workspace does not have is taken over if its file fits. -/
theorem takeOver_self (hnone : w.files.lookup name = none) :
    (takeOver h root w name).files.lookup name =
      ((h.content? (placeOf root name)).filter fun data => w.used + data.size ≤ quota).map
        Entry.ofData := by
  rw [takeOver]
  cases h.content? (placeOf root name) with
  | none => exact hnone
  | some data =>
    have hfits : w.fits name data = decide (w.used + data.size ≤ quota) := by
      rw [fits, sizeOf, hnone, Nat.sub_zero]
    show (w.loadFile name data).files.lookup name = _
    rw [loadFile, hfits]
    by_cases hsize : w.used + data.size ≤ quota
    · simp only [hsize, decide_true, if_true, Option.filter_some, Option.map_some]
      exact lookup_store_self _
    · simp only [hsize, decide_false, Bool.false_eq_true, if_false, Option.filter_some,
        Option.map_none]
      exact hnone

/-- The bytes of the file at a location that an empty workspace takes over. -/
def fittingSize (h : Host) (l : Location) : Nat :=
  ((h.content? l).filter (·.size ≤ quota)).elim 0 ByteArray.size

theorem used_takeOver (h : Host) (root name : RawText) :
    (takeOver h root {} name).used = fittingSize h (placeOf root name) := by
  rw [takeOver, fittingSize]
  cases h.content? (placeOf root name) with
  | none => rfl
  | some data =>
    have hfits : fits {} name data = decide (data.size ≤ quota) :=
      congrArg (fun n => decide (n ≤ quota)) (Nat.zero_add data.size)
    show (loadFile {} name data).used = _
    rw [loadFile, hfits, Option.filter_some]
    by_cases hsize : data.size ≤ quota
    · simp only [hsize, decide_true, if_true]
      exact Nat.zero_add data.size
    · simp only [hsize, decide_false, Bool.false_eq_true, if_false]
      rfl

theorem Consistent.takeOver (hw : Consistent w) (hname : validPath name = true) :
    Consistent (takeOver h root w name) := by
  rw [Workspace.takeOver]
  cases h.content? (placeOf root name) with
  | none => exact hw
  | some data => exact hw.loadFile hname

theorem dirty_takeOver (hdirty : w.dirty = []) : (takeOver h root w name).dirty = [] := by
  rw [takeOver]
  cases h.content? (placeOf root name) with
  | none => exact hdirty
  | some data =>
    show (w.loadFile name data).dirty = []
    unfold loadFile
    split
    · simp [hdirty]
    · exact hdirty

/-! ## Tracking a host -/

/-- Every file that is not marked is on the host. -/
def Tracks (h : Host) (root : RawText) (w : Workspace) : Prop :=
  ∀ name e, w.files.lookup name = some e → name ∉ w.dirty →
    h.content? (placeOf root name) = some e.data

theorem tracks_empty (h : Host) (root : RawText) : Tracks h root {} := by
  intro name e he
  cases he

theorem Tracks.takeOver (ht : Tracks h root w) (name : RawText) :
    Tracks h root (takeOver h root w name) := by
  rw [Workspace.takeOver]
  cases hcontent : h.content? (placeOf root name) with
  | none => exact ht
  | some data =>
    show Tracks h root (w.loadFile name data)
    unfold loadFile
    split
    · intro name' e hlookup hdirty
      by_cases hname : name' = name
      · subst hname
        rw [lookup_store_self] at hlookup
        rw [hcontent, ← Option.some.inj hlookup]
        rfl
      · rw [lookup_store_of_ne hname] at hlookup
        refine ht name' e hlookup fun hmem => hdirty ?_
        exact List.mem_filter.2 ⟨hmem, by simpa using hname⟩
    · exact ht

/-- The workspace has files of the host and nothing else to say about it. -/
structure Mirrors (h : Host) (root : RawText) (w : Workspace) : Prop where
  consistent : Consistent w
  tracks : Tracks h root w
  unmarked : w.dirty = []

theorem mirrors_empty (h : Host) (root : RawText) : Mirrors h root {} :=
  ⟨consistent_empty, tracks_empty h root, rfl⟩

theorem Mirrors.takeOver (hw : Mirrors h root w) (hname : validPath name = true) :
    Mirrors h root (takeOver h root w name) :=
  ⟨hw.consistent.takeOver hname, hw.tracks.takeOver name, dirty_takeOver hw.unmarked⟩

theorem Mirrors.foldl_takeOver (hw : Mirrors h root w)
    (hnames : ∀ name ∈ names, validPath name = true) :
    Mirrors h root (names.foldl (Workspace.takeOver h root) w) := by
  induction names generalizing w with
  | nil => exact hw
  | cons name rest ih =>
    obtain ⟨hname, hrest⟩ := List.forall_mem_cons.1 hnames
    exact ih (hw.takeOver hname) hrest

/-- An empty workspace mirrors the host after loading without an error. -/
theorem mirrors_load (htree : h.IsTree)
    (hload : (load root names {} : StateM Host _).run h = ((w, none), h')) : Mirrors h root w := by
  obtain ⟨r, hrun, hr⟩ := load_run htree root names {}
  obtain ⟨rfl, -⟩ := Prod.mk.inj (hrun.symm.trans hload)
  obtain ⟨hnames, hw : w = _⟩ := hr rfl
  rw [hw]
  exact (mirrors_empty h root).foldl_takeOver hnames

theorem mem_mark {names : List RawText} :
    name' ∈ mark names name ↔ name' = name ∨ name' ∈ names := by
  unfold mark
  split
  · next hmem =>
    refine ⟨.inr, fun h => h.elim (fun heq => ?_) id⟩
    rw [heq]
    exact List.contains_iff_mem.1 hmem
  · simp [or_comm]

theorem Tracks.write (ht : Tracks h root w) (hwrite : w.write name data = .ok w') :
    Tracks h root w' := by
  obtain ⟨-, -, ⟨-, rfl⟩ | ⟨-, rfl⟩⟩ := write_ok_cases hwrite
  · exact ht
  · intro name' e hlookup hdirty
    obtain ⟨hne, hmem⟩ := not_or.1 (mt mem_mark.2 hdirty)
    exact ht name' e ((lookup_store_of_ne hne _).symm.trans hlookup) hmem

/-- A deletion that succeeds drops the file of a name and marks it. -/
theorem delete_ok (hdelete : w.delete name = .ok w') :
    w'.files.lookup name = none ∧ w'.dirty = mark w.dirty name ∧
      ∀ name', name' ≠ name → w'.files.lookup name' = w.files.lookup name' := by
  unfold delete at hdelete
  split at hdelete
  · cases hdelete
  · cases hdelete
    exact ⟨lookup_erase_self, rfl, fun name' hne => lookup_erase_of_ne hne⟩

theorem Tracks.delete (ht : Tracks h root w) (hdelete : w.delete name = .ok w') :
    Tracks h root w' := by
  obtain ⟨-, hdirty, hothers⟩ := delete_ok hdelete
  intro name' e hlookup hclean
  rw [hdirty] at hclean
  obtain ⟨hne, hmem⟩ := not_or.1 (mt mem_mark.2 hclean)
  exact ht name' e ((hothers name' hne).symm.trans hlookup) hmem

/-! ## Persisting -/

/-- A persist leaves all files but those of the marked names as they are, also if it fails. -/
theorem Consistent.persist_others (hw : Consistent w) (htree : h.IsTree) (root : RawText) :
    let r := (persist root w : StateM Host _).run h
    r.2.IsTree ∧ ∀ l, (∀ name ∈ w.dirty, l ≠ placeOf root name) → r.2.file? l = h.file? l := by
  have hmake : (HostAccess.makeDirs root : StateM Host _).run h = h.makeDirs root := rfl
  obtain ⟨htree', hfiles⟩ := htree.makeDirs root
  rw [persist]
  rcases hroot : h.makeDirs root with ⟨e | ⟨⟩, made⟩ <;> rw [hroot] at hmake htree' hfiles
  · rw [persistInOrder_of_error hmake]
    exact ⟨htree', fun l _ => hfiles l⟩
  · rw [persistInOrder_of_ok hmake]
    have hperm := (w.perm_deletedFirst _).trans (List.mergeSort_perm w.dirty RawText.precedes)
    have hsettles := persistEach_settles htree' root w fun name hname =>
      hw.marked.valid name (hperm.subset hname)
    refine ⟨hsettles.tree, fun l hl => ?_⟩
    rw [hsettles.others l fun name hname => hl name (hperm.subset hname), hfiles l]

/-- A persist without an error brings the host into agreement with every marked name and leaves all
other files as they are. -/
theorem Consistent.persist_run (hw : Consistent w) (htree : h.IsTree)
    (hrun : (persist root w : StateM Host _).run h = ((w', none), h')) :
    h'.IsTree ∧ (∀ name ∈ w.dirty, Agrees h' root w name) ∧
      ∀ l, (∀ name ∈ w.dirty, l ≠ placeOf root name) → h'.file? l = h.file? l := by
  have hothers := hw.persist_others htree root
  rw [hrun] at hothers
  refine ⟨hothers.1, fun name hname => ?_, hothers.2⟩
  have hmake : (HostAccess.makeDirs root : StateM Host _).run h = h.makeDirs root := rfl
  have htree' := (htree.makeDirs root).1
  rw [persist] at hrun
  rcases hroot : h.makeDirs root with ⟨e | ⟨⟩, made⟩ <;> rw [hroot] at hmake htree'
  · rw [persistInOrder_of_error hmake] at hrun
    cases hrun
  · rw [persistInOrder_of_ok hmake] at hrun
    have hperm := (w.perm_deletedFirst _).trans (List.mergeSort_perm w.dirty RawText.precedes)
    have hsettles := persistEach_settles htree' root w fun name hname =>
      hw.marked.valid name (hperm.subset hname)
    generalize (persistEach root w _ : StateM Host _).run made = r at hsettles hrun
    obtain ⟨failures, after⟩ := r
    obtain ⟨hresult, rfl⟩ := Prod.mk.inj hrun
    obtain rfl : failures = [] := by
      simpa using (Prod.mk.inj hresult).2
    exact (hsettles.agrees name (hperm.symm.subset hname)).resolve_right (List.not_mem_nil)

/-- After a persist without an error of a workspace that tracks the host, the host has every file of
the workspace, and no file under a marked name that the workspace does not have. -/
theorem Tracks.persist (ht : Tracks h root w) (hw : Consistent w) (htree : h.IsTree)
    (hrun : (persist root w : StateM Host _).run h = ((w', none), h')) :
    (∀ name e, w.files.lookup name = some e → h'.content? (placeOf root name) = some e.data) ∧
      (∀ name ∈ w.dirty, w.files.lookup name = none → h'.content? (placeOf root name) = none) ∧
      ∀ l, (∀ name ∈ w.dirty, l ≠ placeOf root name) → h'.file? l = h.file? l := by
  obtain ⟨htree', hagrees, hothers⟩ := hw.persist_run htree hrun
  refine ⟨fun name e hlookup => ?_, fun name hname hlookup => ?_, hothers⟩
  · by_cases hname : name ∈ w.dirty
    · have hread := hagrees name hname
      rw [Agrees, hlookup] at hread
      exact htree'.content_of_readFile hread
    · have hvalid : validPath name = true :=
        hw.stored.valid (name, e) (mem_of_lookup_eq_some hlookup)
      rw [Host.content?, hothers, ← Host.content?, ht name e hlookup hname]
      intro other hother heq
      rw [placeOf_injective hvalid (hw.marked.valid other hother) heq] at hname
      exact hname hother
  · have hnone := hagrees name hname
    rw [Agrees, hlookup] at hnone
    rw [Host.content?, show h'.file? (placeOf root name) = none from hnone]
    rfl

end Workspace

end Easel
