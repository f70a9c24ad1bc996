import Easel.Proofs.Host.Tree
import Easel.Proofs.Path.Clean
import Easel.Proofs.Workspace.Calls

/-!
# Persisting loses no change

Persisting a name brings one location of the host into agreement with the workspace, or fails
(`persistName_settles`).  Valid names lead to locations of their own, so names that are persisted
one after another do not undo each other, in any order (`persistEach_settles`).  After a persist
every marked name is in agreement with the host or still marked, and no other file of the host has
changed: `persist_keeps_changes`.
-/

namespace Easel.Workspace

/-- Where a name leads below a root. -/
def placeOf (root name : RawText) : Location := locate (Path.join root name)

/-- The host has below the root what the workspace has under the name: the same content, or no
file. -/
def Agrees (h : Host) (root : RawText) (w : Workspace) (name : RawText) : Prop :=
  match w.files.lookup name with
  | some e => h.readFile (Path.join root name) = .ok e.data
  | none => h.file? (placeOf root name) = none

/-- What persisting names does to a host, if it fails for some of them. -/
structure Settles (root : RawText) (w : Workspace) (names failed : List RawText) (h h' : Host) :
    Prop where
  tree : h'.IsTree
  agrees : ∀ name ∈ names, Agrees h' root w name ∨ name ∈ failed
  others : ∀ l, (∀ name ∈ names, l ≠ placeOf root name) → h'.file? l = h.file? l

variable {h h' h'' : Host} {root name : RawText} {w : Workspace}
  {names failed failed' : List RawText}

theorem placeOf_injective {name name' : RawText} (hname : validPath name = true)
    (hname' : validPath name' = true) (heq : placeOf root name = placeOf root name') :
    name = name' := by
  rw [placeOf, placeOf, locate, locate, Path.cleanSegments_join root hname,
    Path.cleanSegments_join root hname'] at heq
  exact Path.split_injective (List.append_cancel_left heq)

/-- Agreement at a name is a matter of the file there. -/
theorem Agrees.congr (hagrees : Agrees h root w name) (htree : h.IsTree) (htree' : h'.IsTree)
    (hfile : h'.file? (placeOf root name) = h.file? (placeOf root name)) :
    Agrees h' root w name := by
  rw [Agrees] at hagrees ⊢
  cases hlookup : w.files.lookup name with
  | some e =>
    simp only [hlookup] at hagrees ⊢
    obtain ⟨hadmits, hdata⟩ := htree.readFile_eq_ok_iff.1 hagrees
    rw [← placeOf, ← hfile] at hdata
    exact htree'.readFile_eq_ok_iff.2 ⟨hadmits, hdata⟩
  | none =>
    simp only [hlookup] at hagrees ⊢
    rw [hfile, hagrees]

/-! ## One name -/

/-- A name for which nothing is done to files but at its own place settles once it agrees. -/
theorem settles_singleton (htree : h'.IsTree)
    (hagrees : Agrees h' root w name ∨ name ∈ failed)
    (hothers : ∀ l, l ≠ placeOf root name → h'.file? l = h.file? l) :
    Settles root w [name] failed h h' where
  tree := htree
  agrees _ hmem := List.mem_singleton.1 hmem ▸ hagrees
  others l hl := hothers l (hl name (List.mem_singleton_self name))

theorem agrees_of_no_file (hlookup : w.files.lookup name = none)
    (hfile : h.file? (placeOf root name) = none) : Agrees h root w name := by
  rw [Agrees, hlookup]
  exact hfile

theorem persistRemoval_settles (htree : h.IsTree) (hlookup : w.files.lookup name = none) :
    let r := (persistRemoval root name : StateM Host _).run h
    Settles root w [name] (r.1.map fun _ => name).toList h r.2 := by
  have hrun : (HostAccess.remove (Path.join root name) : StateM Host _).run h =
      h.change (·.remove (Path.join root name)) := rfl
  rw [persistRemoval, run_bind, hrun, Host.change]
  cases hremove : h.remove (Path.join root name) with
  | ok h' =>
    obtain ⟨htree', hgone, hothers⟩ := htree.remove hremove
    exact settles_singleton htree' (.inl (agrees_of_no_file hlookup hgone)) hothers
  | error e =>
    by_cases hmissing : e.cause = .missing
    · have hgone := htree.remove_missing hremove hmissing
      simp only [hmissing, if_true]
      exact settles_singleton htree (.inl (agrees_of_no_file hlookup hgone)) fun _ _ => rfl
    · simp only [hmissing, if_false]
      exact settles_singleton htree (.inr (List.mem_singleton_self name)) fun _ _ => rfl

theorem persistFile_settles (htree : h.IsTree) {e : Entry}
    (hlookup : w.files.lookup name = some e) :
    let r := (persistFile root name e.data : StateM Host _).run h
    Settles root w [name] (r.1.map fun _ => name).toList h r.2 := by
  have hrun : (HostAccess.makeDirs (Path.parent (Path.join root name)) : StateM Host _).run h =
      h.makeDirs (Path.parent (Path.join root name)) := rfl
  rw [persistFile]
  simp only [run_bind, hrun]
  obtain ⟨htree', hfiles⟩ := htree.makeDirs (Path.parent (Path.join root name))
  generalize h.makeDirs (Path.parent (Path.join root name)) = made at htree' hfiles ⊢
  obtain ⟨e' | ⟨⟩, h'⟩ := made
  · exact settles_singleton htree' (.inr (List.mem_singleton_self name)) fun l _ => hfiles l
  · have hrun' : (HostAccess.writeFile (Path.join root name) e.data : StateM Host _).run h' =
        h'.change (·.writeFile (Path.join root name) e.data) := rfl
    simp only [run_bind, hrun', Host.change]
    cases hwrite : h'.writeFile (Path.join root name) e.data with
    | error e' =>
      exact settles_singleton htree' (.inr (List.mem_singleton_self name)) fun l _ => hfiles l
    | ok h'' =>
      obtain ⟨htree'', hadmits, hfile, hothers⟩ := htree'.writeFile hwrite
      refine settles_singleton htree'' (.inl ?_) fun l hl => (hothers l hl).trans (hfiles l)
      rw [Agrees, hlookup]
      exact htree''.readFile_eq_ok_iff.2 ⟨hadmits, false, hfile⟩

theorem persistName_settles (htree : h.IsTree) (root : RawText) (w : Workspace) (name : RawText) :
    let r := (persistName root w name : StateM Host _).run h
    Settles root w [name] (r.1.map fun _ => name).toList h r.2 := by
  rw [persistName]
  cases hlookup : w.files.lookup name with
  | some e => exact persistFile_settles htree hlookup
  | none => exact persistRemoval_settles htree hlookup

/-! ## Names in turn -/

/-- Settling names leaves a name settled before as it is, since no two names lead to one place. -/
theorem Settles.cons (h₁ : Settles root w [name] failed h h')
    (h₂ : Settles root w names failed' h' h'') (hvalid : ∀ n ∈ name :: names, validPath n = true) :
    Settles root w (name :: names) (failed ++ failed') h h'' := by
  refine ⟨h₂.tree, fun n hn => ?_, fun l hl => ?_⟩
  · by_cases hmem : n ∈ names
    · exact (h₂.agrees n hmem).imp_right (List.mem_append_right _)
    · obtain rfl : n = name := (List.mem_cons.1 hn).resolve_right hmem
      refine (h₁.agrees n (List.mem_singleton_self n)).imp (fun hagrees => ?_)
        (List.mem_append_left _)
      refine hagrees.congr h₁.tree h₂.tree (h₂.others _ fun n' hn' heq => hmem ?_)
      have := placeOf_injective (hvalid n hn) (hvalid n' (List.mem_cons_of_mem _ hn')) heq
      exact this ▸ hn'
  · rw [h₂.others l fun n hn => hl n (List.mem_cons_of_mem _ hn)]
    exact h₁.others l fun n hn => hl n (List.mem_singleton.1 hn ▸ List.mem_cons_self ..)

theorem persistEach_settles (htree : h.IsTree) (root : RawText) (w : Workspace)
    (hvalid : ∀ name ∈ names, validPath name = true) :
    let r := (persistEach root w names : StateM Host _).run h
    Settles root w names (r.1.map Prod.fst) h r.2 := by
  induction names generalizing h with
  | nil => exact ⟨htree, by simp, fun _ _ => rfl⟩
  | cons name rest ih =>
    have hname := persistName_settles htree root w name
    have hrest := ih hname.tree fun n hn => hvalid n (List.mem_cons_of_mem _ hn)
    have hall := hname.cons hrest hvalid
    rw [persistEach_cons]
    rcases hr : (persistName root w name : StateM Host _).run h with ⟨_ | e, host⟩ <;>
      simpa [hr] using hall

/-- After a persist of a workspace to any root of any host, with its marked names in any order, each
of them is in agreement with the host or still marked, with the flag set and an error. Without an
error nothing is marked. Files in the workspace stay as they are, and so does every file of the host
away from the marked names. -/
theorem persist_keeps_changes {w : Workspace} (hw : Reachable w) {h : Host} (htree : h.IsTree)
    (root : RawText) {order : List RawText} (horder : order.Perm w.dirty) :
    let r := (persistInOrder order root w : StateM Host _).run h
    (∀ name ∈ w.dirty, Agrees r.2 root w name ∨
      (name ∈ r.1.1.dirty ∧ r.1.1.changed = true ∧ r.1.2.isSome = true)) ∧
    (r.1.2 = none → r.1.1.dirty = [] ∧ r.1.1.changed = false) ∧
    r.1.1.files = w.files ∧ r.1.1.used = w.used ∧
    ∀ l, (∀ name ∈ w.dirty, l ≠ placeOf root name) → r.2.file? l = h.file? l := by
  obtain ⟨-, hvalid, hflag⟩ := hw.consistent.marked
  have hrun : (HostAccess.makeDirs root : StateM Host _).run h = h.makeDirs root := rfl
  obtain ⟨htree', hfiles⟩ := htree.makeDirs root
  rcases hroot : h.makeDirs root with ⟨e | ⟨⟩, h'⟩ <;> rw [hroot] at hrun htree' hfiles
  · rw [persistInOrder_of_error hrun]
    refine ⟨fun name hname => .inr ⟨hname, hflag (List.ne_nil_of_mem hname), rfl⟩, nofun, rfl, rfl,
      fun l _ => hfiles l⟩
  · rw [persistInOrder_of_ok hrun]
    have hperm := (w.perm_deletedFirst order).trans horder
    have hsettles := persistEach_settles htree' root w
      fun name hname => hvalid name (hperm.subset hname)
    generalize (persistEach root w (w.deletedFirst order) : StateM Host _).run h' = r at hsettles ⊢
    obtain ⟨failures, h''⟩ := r
    refine ⟨fun name hname => ?_, fun hnone => ?_, rfl, rfl, fun l hl => ?_⟩
    · refine (hsettles.agrees name (hperm.symm.subset hname)).imp_right fun hfailed => ?_
      cases failures with
      | nil => cases hfailed
      | cons failure rest => exact ⟨hfailed, rfl, rfl⟩
    · cases failures with
      | nil => exact ⟨rfl, rfl⟩
      | cons failure rest => cases hnone
    · rw [← hfiles l]
      exact hsettles.others l fun name hname => hl name (hperm.subset hname)

/-- A deleted file makes room for a directory of its name, a directory is in the way of another
file, and the host has a third that the workspace does not know. -/
theorem persist_keeps_changes_blocked :
    let w₁ := ((({} : Workspace).perform (.write "a" ⟨#[1]⟩) : StateM Host _).run {}).1.1
    let w₂ := ((w₁.perform (.delete "a") : StateM Host _).run {}).1.1
    let w₃ := ((w₂.perform (.write "a/b" ⟨#[2]⟩) : StateM Host _).run {}).1.1
    let w := ((w₃.perform (.write "c" ⟨#[3]⟩) : StateM Host _).run {}).1.1
    let h : Host := ⟨[(["r"], .directory), (["r", "a"], .file ⟨#[1]⟩ false),
      (["r", "c"], .directory), (["r", "c", "x"], .file ⟨#[4]⟩ false),
      (["r", "z"], .file ⟨#[5]⟩ true)]⟩
    let order : List RawText := ["c", "a/b", "a"]
    let r := (persistInOrder order "/r" w : StateM Host _).run h
    Reachable w ∧ h.IsTree ∧ order.Perm w.dirty ∧
      Agrees r.2 "/r" w "a" ∧ Agrees r.2 "/r" w "a/b" ∧
      r.1.1.dirty = [RawText.ofString "c"] ∧ r.1.1.changed = true ∧ r.1.2.isSome = true ∧
      r.2.file? ["r", "z"] = some (⟨#[5]⟩, true) := by
  intro w₁ w₂ w₃ w h order r
  have hw : Reachable w := .call _ ({} : Host) (.call _ ({} : Host) (.call _ ({} : Host)
    (.call _ ({} : Host) .empty trivial) trivial) trivial) trivial
  have htree : h.IsTree := Host.isTree_of_entries (by decide +kernel)
  have horder : order.Perm w.dirty := by decide +kernel
  obtain ⟨hagrees, -, -, -, hothers⟩ := persist_keeps_changes hw htree "/r" horder
  have hleft : r.1.1.dirty = [RawText.ofString "c"] := by decide +kernel
  have hsettled : ∀ name ∈ w.dirty, name ≠ "c" → Agrees r.2 "/r" w name := by
    intro name hname hne
    refine (hagrees name hname).resolve_right ?_
    rintro ⟨hmem, -, -⟩
    rw [hleft] at hmem
    exact hne (List.mem_singleton.1 hmem)
  refine ⟨hw, htree, horder, hsettled "a" (by decide +kernel) (by decide +kernel),
    hsettled "a/b" (by decide +kernel) (by decide +kernel), hleft, by decide +kernel,
    by decide +kernel, ?_⟩
  exact hothers ["r", "z"] (by decide +kernel)

end Easel.Workspace
