import Easel.Proofs.Lookup
import Easel.Workspace.Sync
import Mathlib.Algebra.GroupWithZero.Nat
import Mathlib.Data.List.Nodup

/-!
# What calls keep of a workspace

A workspace is reached from an empty one by calls, each against a host of any kind (`Reachable`).
In every workspace that is reached the bytes in use are those of the files, every name is valid,
every checksum is that of its file, and marked names are announced by the flag (`Consistent`).  An
edit that is refused changes nothing: `reachable_consistent`.
-/

namespace Easel.Workspace

/-! ## Calls -/

/-- A call on a workspace. Marked names are persisted in some order. -/
inductive Call where
  | write (name : RawText) (data : ByteArray)
  | writeText (name content : RawText)
  | delete (name : RawText)
  | load (root : RawText) (names : List RawText)
  | persist (root : RawText) (order : List RawText)

/-- Why a call fails. -/
inductive Call.Failure where
  | refused (e : Error)
  | load (e : LoadError)
  | persist (e : PersistError)

/-- The call changes the workspace alone, not the host. -/
def Call.isEdit : Call → Bool
  | .write .. | .writeText .. | .delete _ => true
  | .load .. | .persist .. => false

/-- The names that are persisted are the marked ones. -/
def Call.Suits (w : Workspace) : Call → Prop
  | .persist _ order => order.Perm w.dirty
  | _ => True

/-- The workspace after an edit, and why it is refused if it is. -/
def afterEdit (w : Workspace) : Except Error Workspace → Workspace × Option Call.Failure
  | .ok w' => (w', none)
  | .error e => (w, some (.refused e))

/-- The workspace after a call, and why the call fails if it does. -/
def perform {m : Type → Type} [Monad m] [HostAccess m] (w : Workspace) :
    Call → m (Workspace × Option Call.Failure)
  | .write name data => pure (w.afterEdit (w.write name data))
  | .writeText name content => pure (w.afterEdit (w.write name content.data))
  | .delete name => pure (w.afterEdit (w.delete name))
  | .load root names => do
    let (w', e) ← load root names w
    return (w', e.map .load)
  | .persist root order => do
    let (w', e) ← persistInOrder order root w
    return (w', e.map .persist)

/-- The workspaces that calls lead to from an empty one. Each call may meet a host of its own. -/
inductive Reachable : Workspace → Prop
  | empty : Reachable {}
  | call {w : Workspace} (c : Call) {σ : Type} [HostAccess (StateM σ)] (host : σ) :
    Reachable w → c.Suits w → Reachable ((w.perform c : StateM σ _).run host).1.1

/-! ## Consistent workspaces -/

/-- The files have distinct valid names and their own checksums, and they take up the bytes in
use. -/
structure Stored (files : List (RawText × Entry)) (used : Nat) : Prop where
  keys : (files.map Prod.fst).Nodup
  used_eq : used = (files.map fun f => f.2.data.size).sum
  within : used ≤ quota
  valid : ∀ f ∈ files, validPath f.1 = true
  checksum : ∀ f ∈ files, f.2.checksum = Easel.checksum f.2.data

/-- The marked names are distinct and valid, and the flag is set if there are any. -/
structure Marked (dirty : List RawText) (changed : Bool) : Prop where
  nodup : dirty.Nodup
  valid : ∀ name ∈ dirty, validPath name = true
  flag : dirty ≠ [] → changed = true

structure Consistent (w : Workspace) : Prop where
  stored : Stored w.files w.used
  marked : Marked w.dirty w.changed

variable {w w' : Workspace} {files : List (RawText × Entry)} {name root : RawText}
  {data : ByteArray} {used : Nat} {dirty names order : List RawText} {changed : Bool}

theorem consistent_empty : Consistent {} where
  stored := ⟨List.nodup_nil, rfl, Nat.zero_le _, by simp, by simp⟩
  marked := ⟨List.nodup_nil, by simp, by simp⟩

/-! ## Files -/

/-- The bytes of the file under a name, if there is one. -/
def sizeIn (files : List (RawText × Entry)) (name : RawText) : Nat :=
  match files.lookup name with
  | some e => e.data.size
  | none => 0

theorem filter_key_eq_self (h : name ∉ files.map Prod.fst) :
    (files.filter fun f => f.1 != name) = files := by
  rw [List.filter_eq_self]
  intro f hf
  rw [bne_iff_ne]
  rintro rfl
  exact h (List.mem_map_of_mem hf)

/-- All bytes are those of one file and those of the others. -/
theorem sum_erase (hkeys : (files.map Prod.fst).Nodup) (name : RawText) :
    ((files.filter fun f => f.1 != name).map fun f => f.2.data.size).sum + sizeIn files name =
      (files.map fun f => f.2.data.size).sum := by
  induction files with
  | nil => rfl
  | cons f rest ih =>
    obtain ⟨key, e⟩ := f
    rw [List.map_cons, List.nodup_cons] at hkeys
    obtain ⟨hkey, hrest⟩ := hkeys
    by_cases hname : name = key
    · subst hname
      have hsize : sizeIn ((name, e) :: rest) name = e.data.size := by
        rw [sizeIn, List.lookup_cons_self]
      rw [List.filter_cons_of_neg (by simp), filter_key_eq_self hkey, hsize, List.map_cons,
        List.sum_cons, Nat.add_comm]
    · have hsize : sizeIn ((key, e) :: rest) name = sizeIn rest name := by
        rw [sizeIn, List.lookup_cons, beq_eq_false_iff_ne.2 hname, sizeIn]
      rw [List.filter_cons_of_pos (by simpa using Ne.symm hname), hsize, List.map_cons,
        List.map_cons, List.sum_cons, List.sum_cons, Nat.add_assoc, ih hrest]

theorem Stored.erase (h : Stored files used) (name : RawText) :
    Stored (files.filter fun f => f.1 != name) (used - sizeIn files name) where
  keys := h.keys.sublist (List.filter_sublist.map _)
  used_eq := by
    have := sum_erase h.keys name
    have := h.used_eq
    omega
  within := Nat.le_trans (Nat.sub_le _ _) h.within
  valid f hf := h.valid f (List.mem_of_mem_filter hf)
  checksum f hf := h.checksum f (List.mem_of_mem_filter hf)

theorem Stored.put (h : Stored files used) (hname : validPath name = true)
    (hfits : used - sizeIn files name + data.size ≤ quota) :
    Stored (putFile files name (.ofData data)) (used - sizeIn files name + data.size) := by
  have hrest := h.erase name
  refine ⟨?_, ?_, hfits, ?_, ?_⟩
  · rw [putFile, List.map_cons, List.nodup_cons]
    refine ⟨fun hmem => ?_, hrest.keys⟩
    obtain ⟨f, hf, heq⟩ := List.mem_map.1 hmem
    exact bne_iff_ne.1 (List.mem_filter.1 hf).2 heq
  · rw [putFile, List.map_cons, List.sum_cons, ← hrest.used_eq, Nat.add_comm]
    rfl
  · intro f hf
    rcases List.mem_cons.1 hf with rfl | hf
    · exact hname
    · exact hrest.valid f hf
  · intro f hf
    rcases List.mem_cons.1 hf with rfl | hf
    · rfl
    · exact hrest.checksum f hf

theorem Consistent.store (h : Consistent w) (hname : validPath name = true)
    (hfits : w.fits name data = true) :
    Stored (w.store name (.ofData data)).files (w.store name (.ofData data)).used :=
  h.stored.put hname (of_decide_eq_true hfits)

/-! ## Marks -/

theorem Marked.mark (h : Marked dirty changed) (hname : validPath name = true) :
    Marked (mark dirty name) true := by
  rw [Workspace.mark]
  by_cases hmem : name ∈ dirty
  · rw [if_pos (List.contains_iff_mem.2 hmem)]
    exact ⟨h.nodup, h.valid, fun _ => rfl⟩
  · rw [if_neg (by simpa using hmem), ← List.concat_eq_append]
    refine ⟨h.nodup.concat hmem, fun other hother => ?_, fun _ => rfl⟩
    rw [List.concat_eq_append] at hother
    rcases List.mem_append.1 hother with hother | hother
    · exact h.valid other hother
    · exact List.mem_singleton.1 hother ▸ hname

theorem Marked.sublist (h : Marked dirty changed) (hsub : names.Sublist dirty) :
    Marked names changed where
  nodup := h.nodup.sublist hsub
  valid name hname := h.valid name (hsub.subset hname)
  flag hne := h.flag fun hnil => hne (List.sublist_nil.1 (hnil ▸ hsub))

/-! ## Edits -/

/-- What a write stores. -/
def written (w : Workspace) (name : RawText) (data : ByteArray) : Workspace :=
  { w.store name (.ofData data) with dirty := mark w.dirty name, changed := true }

/-- The entry is taken to hold the content. -/
def Entry.Passes (e : Entry) (data : ByteArray) : Prop :=
  e.checksum = Easel.checksum data ∧ e.data.size = data.size

theorem write_of_fits (hname : validPath name = true) (hfits : w.fits name data = true) :
    ((∃ e, w.files.lookup name = some e ∧ e.Passes data) → w.write name data = .ok w) ∧
      ((∀ e, w.files.lookup name = some e → ¬ e.Passes data) →
        w.write name data = .ok (w.written name data)) := by
  simp only [write, hname, hfits, Bool.not_true, Bool.false_eq_true, if_false]
  constructor
  · rintro ⟨e, hlookup, hpasses⟩
    rw [hlookup]
    exact if_pos hpasses
  · intro hother
    cases hlookup : w.files.lookup name with
    | none => rfl
    | some e => exact if_neg (hother e hlookup)

/-- A write that succeeds has a valid name and fits. It does nothing if the entry that is there is
taken to hold the content already, and stores the content otherwise. -/
theorem write_ok_cases (hwrite : w.write name data = .ok w') :
    validPath name = true ∧ w.fits name data = true ∧
      ((∃ e, w.files.lookup name = some e ∧ e.Passes data) ∧ w' = w ∨
        (∀ e, w.files.lookup name = some e → ¬ e.Passes data) ∧ w' = w.written name data) := by
  by_cases hname : validPath name = true
  · by_cases hfits : w.fits name data = true
    · refine ⟨hname, hfits, ?_⟩
      obtain ⟨hkeeps, hstores⟩ := write_of_fits hname hfits
      by_cases hpasses : ∃ e, w.files.lookup name = some e ∧ e.Passes data
      · exact .inl ⟨hpasses, Except.ok.inj (hwrite.symm.trans (hkeeps hpasses))⟩
      · have hother : ∀ e, w.files.lookup name = some e → ¬ e.Passes data :=
          fun e he hpass => hpasses ⟨e, he, hpass⟩
        exact .inr ⟨hother, Except.ok.inj (hwrite.symm.trans (hstores hother))⟩
    · simp [write, hname, hfits] at hwrite
  · simp [write, hname] at hwrite

theorem Consistent.write (h : Consistent w) (hwrite : w.write name data = .ok w') :
    Consistent w' := by
  obtain ⟨hname, hfits, ⟨-, rfl⟩ | ⟨-, rfl⟩⟩ := write_ok_cases hwrite
  · exact h
  · exact ⟨h.store hname hfits, h.marked.mark hname⟩

theorem entry_eq_ok_iff {e : Entry} :
    w.entry name = .ok e ↔ validPath name = true ∧ w.files.lookup name = some e := by
  rw [entry]
  by_cases hname : validPath name = true
  · rw [if_pos hname]
    cases w.files.lookup name <;> simp [hname]
  · simp [hname]

theorem Consistent.delete (h : Consistent w) (hdelete : w.delete name = .ok w') :
    Consistent w' := by
  rw [Workspace.delete] at hdelete
  split at hdelete
  · cases hdelete
  · rename_i old hentry
    cases hdelete
    obtain ⟨hname, hold⟩ := entry_eq_ok_iff.1 hentry
    have hsize : sizeIn w.files name = old.data.size := by
      rw [sizeIn, hold]
    exact ⟨hsize ▸ h.stored.erase name, h.marked.mark hname⟩

theorem Consistent.afterEdit (h : Consistent w) {r : Except Error Workspace}
    (hr : ∀ w', r = .ok w' → Consistent w') : Consistent (w.afterEdit r).1 := by
  cases r with
  | error e => exact h
  | ok w' => exact hr w' rfl

theorem afterEdit_refused {r : Except Error Workspace} {e : Call.Failure}
    (he : (w.afterEdit r).2 = some e) : (w.afterEdit r).1 = w := by
  cases r with
  | error e => rfl
  | ok w' => cases he

/-! ## Loading -/

section Host

variable {σ : Type}

/-- A step and then another, from a state. -/
theorem run_bind {α β : Type} (x : StateM σ α) (f : α → StateM σ β) (s : σ) :
    (x >>= f).run s = (f (x.run s).1).run (x.run s).2 := rfl

variable [HostAccess (StateM σ)]

theorem Consistent.loadFile (h : Consistent w) (hname : validPath name = true) :
    Consistent (w.loadFile name data) := by
  rw [Workspace.loadFile]
  by_cases hfits : w.fits name data = true
  · rw [if_pos hfits]
    exact ⟨h.store hname hfits, h.marked.sublist List.filter_sublist⟩
  · rw [if_neg hfits]
    exact h

/-- Loading a file takes over the content that the host gives for a valid name, or does nothing. -/
theorem loadOne_ok {host : σ} (hload : ((loadOne root name w : StateM σ _).run host).1 = .ok w') :
    w' = w ∨ validPath name = true ∧ ∃ data, w' = w.loadFile name data := by
  by_cases hname : validPath name = true
  · rw [loadOne, if_neg (by simp [hname]), run_bind] at hload
    generalize (HostAccess.stat (Path.join root name) : StateM σ _).run host = stat at hload
    obtain ⟨e | directory, host'⟩ := stat
    · by_cases hmissing : e.cause = .missing
      · simp only [hmissing, if_true] at hload
        exact .inl (Except.ok.inj hload).symm
      · simp only [hmissing, if_false] at hload
        cases hload
    cases directory with
    | true => exact .inl (Except.ok.inj hload).symm
    | false =>
      simp only [run_bind] at hload
      generalize (HostAccess.readFile (Path.join root name) : StateM σ _).run host' = content
        at hload
      obtain ⟨e | data, host''⟩ := content
      · cases hload
      · exact .inr ⟨hname, data, (Except.ok.inj hload).symm⟩
  · rw [loadOne, if_pos (by simp [hname])] at hload
    cases hload

theorem Consistent.load (h : Consistent w) (host : σ) :
    Consistent ((load root names w : StateM σ _).run host).1.1 := by
  induction names generalizing w host with
  | nil => exact h
  | cons name rest ih =>
    rw [Workspace.load, run_bind]
    rcases hone : (loadOne root name w : StateM σ _).run host with ⟨e | w', host'⟩
    · exact h
    · have hw' : Consistent w' := by
        rcases loadOne_ok (congrArg Prod.fst hone) with rfl | ⟨hname, data, rfl⟩
        · exact h
        · exact h.loadFile hname
      exact ih hw' host'

/-! ## Persisting -/

theorem persistEach_cons (root : RawText) (w : Workspace) (name : RawText) (rest : List RawText)
    (host : σ) :
    (persistEach root w (name :: rest) : StateM σ _).run host =
      let r := (persistName root w name : StateM σ _).run host
      let more := (persistEach root w rest : StateM σ _).run r.2
      ((r.1.map (name, ·)).toList ++ more.1, more.2) := by
  rw [persistEach, run_bind]
  rcases (persistName root w name : StateM σ _).run host with ⟨_ | e, host'⟩ <;> rfl

/-- The names that fail are among those persisted, in the same order. -/
theorem persistEach_sublist (root : RawText) (w : Workspace) (names : List RawText) (host : σ) :
    (((persistEach root w names : StateM σ _).run host).1.map Prod.fst).Sublist names := by
  induction names generalizing host with
  | nil => exact List.Sublist.refl _
  | cons name rest ih =>
    rw [persistEach_cons]
    rcases (persistName root w name : StateM σ _).run host with ⟨_ | e, host'⟩
    · exact (ih host').cons _
    · exact (ih host').cons_cons _

/-- The names of deleted files, and then the others. -/
def deletedFirst (w : Workspace) (order : List RawText) : List RawText :=
  (order.filter fun name => !w.contains name) ++ order.filter fun name => w.contains name

theorem perm_deletedFirst (w : Workspace) (order : List RawText) :
    (w.deletedFirst order).Perm order := by
  have := List.filter_append_perm (fun name => !w.contains name) order
  simpa only [deletedFirst, Bool.not_not] using this

theorem persistInOrder_of_error {host host' : σ} {e : HostError}
    (hroot : (HostAccess.makeDirs root : StateM σ _).run host = (.error e, host')) :
    (persistInOrder order root w : StateM σ _).run host = ((w, some (.root root e)), host') := by
  rw [persistInOrder, run_bind, hroot]
  rfl

theorem persistInOrder_of_ok {host host' : σ}
    (hroot : (HostAccess.makeDirs root : StateM σ _).run host = (.ok (), host')) :
    (persistInOrder order root w : StateM σ _).run host =
      let r := (persistEach root w (w.deletedFirst order) : StateM σ _).run host'
      (({ w with dirty := r.1.map Prod.fst, changed := !r.1.isEmpty }, r.1.head?.map Prod.snd),
        r.2) := by
  rw [persistInOrder, run_bind, hroot]
  simp only [List.partition_eq_filter_filter]
  rfl

theorem Consistent.persistInOrder (h : Consistent w) (horder : order.Perm w.dirty) (host : σ) :
    Consistent ((persistInOrder order root w : StateM σ _).run host).1.1 := by
  rcases hroot : (HostAccess.makeDirs root : StateM σ _).run host with ⟨e | ⟨⟩, host'⟩
  · rw [persistInOrder_of_error hroot]
    exact h
  · rw [persistInOrder_of_ok hroot]
    have hperm := (w.perm_deletedFirst order).trans horder
    have hsub := persistEach_sublist root w (w.deletedFirst order) host'
    refine ⟨h.stored, (hperm.nodup_iff.2 h.marked.nodup).sublist hsub, ?_, ?_⟩
    · intro name hname
      exact h.marked.valid name (hperm.subset (hsub.subset hname))
    · intro hne
      simpa using hne

/-! ## Whole runs -/

theorem Consistent.perform (h : Consistent w) {c : Call} (hc : c.Suits w) (host : σ) :
    Consistent ((w.perform c : StateM σ _).run host).1.1 := by
  cases c with
  | write | writeText => exact h.afterEdit fun _ => h.write
  | delete name => exact h.afterEdit fun _ => h.delete
  | load root names => exact h.load host
  | persist root order => exact h.persistInOrder hc host

theorem perform_refused {c : Call} (hc : c.isEdit = true) (host : σ) {e : Call.Failure}
    (he : ((w.perform c : StateM σ _).run host).1.2 = some e) :
    ((w.perform c : StateM σ _).run host).1.1 = w := by
  cases c with
  | write | writeText | delete => exact afterEdit_refused he
  | load | persist => cases hc

end Host

theorem Reachable.consistent (h : Reachable w) : Consistent w := by
  induction h with
  | empty => exact consistent_empty
  | call c host _ hc ih => exact ih.perform hc host

/-- Every workspace that calls lead to is consistent, whatever the hosts did, and an edit of it that
is refused leaves it as it was. The latter is in the types of `write` and `delete`, which give an
error or a workspace. -/
theorem reachable_consistent {w : Workspace} (h : Reachable w) :
    Consistent w ∧ ∀ c : Call, c.isEdit = true → ∀ (σ : Type) [HostAccess (StateM σ)] (host : σ) e,
      ((w.perform c : StateM σ _).run host).1.2 = some e →
        ((w.perform c : StateM σ _).run host).1.1 = w :=
  ⟨h.consistent, fun _ hc _ _ host _ he => perform_refused hc host he⟩

/-- A file is written and then overwritten by one that does not fit. -/
theorem reachable_consistent_overfull :
    let w := ((({} : Workspace).perform (.write "a/b" ⟨#[1, 2]⟩) : StateM Host _).run {}).1.1
    let tooMuch : ByteArray := ⟨Array.replicate (quota + 1) 0⟩
    Reachable w ∧ w.used = 2 ∧ w.dirty = [RawText.ofString "a/b"] ∧ Consistent w ∧
      w.write "a/b" tooMuch = .error ⟨"a/b", .quotaExceeded⟩ ∧
      ((w.perform (.write "a/b" tooMuch) : StateM Host _).run {}).1.1 = w := by
  intro w tooMuch
  have hw : Reachable w := .call _ ({} : Host) .empty trivial
  have hused : w.used = 2 := by decide +kernel
  have hrefused : w.write "a/b" tooMuch = .error ⟨"a/b", .quotaExceeded⟩ := by
    have hfits : w.fits "a/b" tooMuch = false := by
      have hsize : tooMuch.size = quota + 1 := Array.size_replicate
      rw [fits, hsize]
      exact decide_eq_false (by omega)
    have hname : validPath "a/b" = true := by decide +kernel
    simp [write, hname, hfits]
  obtain ⟨hconsistent, hedit⟩ := reachable_consistent hw
  refine ⟨hw, hused, by decide +kernel, hconsistent, hrefused, ?_⟩
  refine hedit (.write "a/b" tooMuch) rfl Host {} (.refused ⟨"a/b", .quotaExceeded⟩) ?_
  show (w.afterEdit (w.write "a/b" tooMuch)).2 = _
  rw [hrefused]
  rfl

end Easel.Workspace
