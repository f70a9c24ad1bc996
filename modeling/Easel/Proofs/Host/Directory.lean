import Easel.Proofs.Host.Tree

/-!
# Work in one directory

What an operation does to a name in a directory that is there depends on the node under that name
and on nothing else.  Two hosts that have the same nodes under some names of a directory look alike
to a program that works on these names (`Host.Alike`), and writing and removing a file there keeps
them alike (`Alike.put`, `Alike.erase`).  Such a program leaves all other nodes and every directory
as they are (`Host.Keeps`).
-/

namespace Easel.Host

variable {h h' g : Host} {l rest place : Location} {path s : RawText} {data : ByteArray}
  {names : List RawText}

/-! ## Ways to a directory -/

theorem walk_congr
    (hnodes : ∀ front, front <+: rest → h'.node? (l ++ front) = h.node? (l ++ front)) :
    h'.walk l rest = h.walk l rest := by
  induction rest generalizing l with
  | nil =>
    have hl := hnodes [] List.prefix_rfl
    rw [List.append_nil] at hl
    rw [walk, walk, hl]
  | cons segment rest ih =>
    have hl := hnodes [] List.nil_prefix
    rw [List.append_nil] at hl
    have hrest : h'.walk (l ++ [segment]) rest = h.walk (l ++ [segment]) rest := by
      refine ih fun front hfront => ?_
      simpa using hnodes (segment :: front) ((List.prefix_cons_inj segment).2 hfront)
    rw [walk, walk, hl, hrest]

theorem IsTree.directory_on_way (htree : h.IsTree) (hplace : h.node? place = some .directory)
    (hway : l <+: place) : h.node? l = some .directory := by
  obtain ⟨rest, rfl⟩ := hway
  by_cases hrest : rest = []
  · simpa [hrest] using hplace
  · exact htree.directory_above hplace hrest

theorem makeDirsFrom_of_directory
    (hdirs : ∀ front, front <+: rest → h.node? (l ++ front) = some .directory) :
    h.makeDirsFrom l rest = (.ok (), h) := by
  induction rest generalizing l with
  | nil => rfl
  | cons segment rest ih =>
    have hnext := hdirs [segment] (by simp)
    rw [makeDirsFrom, hnext]
    refine ih fun front hfront => ?_
    simpa using hdirs (segment :: front) ((List.prefix_cons_inj segment).2 hfront)

/-- A directory that is there need not be made. -/
theorem IsTree.makeDirs_of_directory (htree : h.IsTree)
    (hpath : h.node? (locate path) = some .directory) : h.makeDirs path = (.ok (), h) :=
  makeDirsFrom_of_directory fun _ => htree.directory_on_way hpath

/-! ## Hosts that look alike -/

/-- Two hosts have a directory and the same nodes under some names in it. -/
structure Alike (place : Location) (names : List RawText) (h h' : Host) : Prop where
  tree : h.IsTree
  tree' : h'.IsTree
  directory : h.node? place = some .directory
  directory' : h'.node? place = some .directory
  same : ∀ s ∈ names, h'.node? (place ++ [s]) = h.node? (place ++ [s])

theorem Alike.symm (halike : Alike place names h h') : Alike place names h' h where
  tree := halike.tree'
  tree' := halike.tree
  directory := halike.directory'
  directory' := halike.directory
  same s hs := (halike.same s hs).symm

theorem Alike.mono {names' : List RawText} (halike : Alike place names h h')
    (hnames : ∀ s ∈ names', s ∈ names) : Alike place names' h h' :=
  ⟨halike.tree, halike.tree', halike.directory, halike.directory',
    fun s hs => halike.same s (hnames s hs)⟩

theorem Alike.walk_directory (halike : Alike place names h h') :
    h'.walk [] place = h.walk [] place := by
  refine walk_congr fun front hfront => ?_
  rw [List.nil_append, halike.tree.directory_on_way halike.directory hfront,
    halike.tree'.directory_on_way halike.directory' hfront]

theorem Alike.find (halike : Alike place names h h') (hs : s ∈ names)
    (hpath : locate path = place ++ [s]) : h'.find path = h.find path := by
  have hwalk : h'.walk [] (locate path) = h.walk [] (locate path) := by
    refine walk_congr fun front hfront => ?_
    rw [List.nil_append]
    rw [hpath, List.prefix_concat_iff] at hfront
    obtain rfl | hfront := hfront
    · exact halike.same s hs
    · rw [halike.tree.directory_on_way halike.directory hfront,
        halike.tree'.directory_on_way halike.directory' hfront]
  rw [Host.find, Host.find, hwalk]

/-- Writing succeeds on both hosts or fails on both for the same reason. -/
theorem Alike.writeFile (halike : Alike place names h h') (hs : s ∈ names)
    (hpath : locate path = place ++ [s]) (data : ByteArray) :
    h'.writeFile path data =
      (h.writeFile path data).map fun _ => h'.put (place ++ [s]) (.file data false) := by
  have hwalk : h'.walk [] (locate path).dropLast = h.walk [] (locate path).dropLast := by
    rw [hpath, List.dropLast_concat, halike.walk_directory]
  rw [Host.writeFile, Host.writeFile, halike.find hs hpath, hwalk, hpath]
  cases h.find path with
  | ok node => cases node <;> rfl
  | error cause =>
    cases cause with
    | missing =>
      simp only
      split <;> rfl
    | _ => rfl

/-- Removing what is no directory succeeds on both hosts or fails on both for the same reason. -/
theorem Alike.remove (halike : Alike place names h h') (hs : s ∈ names)
    (hpath : locate path = place ++ [s]) (hnode : h.node? (place ++ [s]) ≠ some .directory) :
    h'.remove path = (h.remove path).map fun _ => h'.erase (place ++ [s]) := by
  rw [Host.remove, Host.remove, halike.find hs hpath, hpath]
  cases hfind : h.find path with
  | ok node =>
    cases node with
    | file data aged => rfl
    | directory =>
      obtain ⟨-, hdirectory⟩ := halike.tree.find_eq_ok_iff.1 hfind
      exact absurd (hpath ▸ hdirectory) hnode
  | error cause => rfl

/-! ## What stays -/

/-- One host is another after work on names in a directory. -/
structure Keeps (place : Location) (names : List RawText) (h g : Host) : Prop where
  tree : g.IsTree
  others : ∀ l, (∀ s ∈ names, l ≠ place ++ [s]) → g.node? l = h.node? l
  directories : ∀ l, g.node? l = some .directory ↔ h.node? l = some .directory

theorem Keeps.refl (htree : h.IsTree) : Keeps place names h h :=
  ⟨htree, fun _ _ => rfl, fun _ => .rfl⟩

theorem Keeps.trans {g' : Host} (hg : Keeps place names h g) (hg' : Keeps place names g g') :
    Keeps place names h g' where
  tree := hg'.tree
  others l hl := (hg'.others l hl).trans (hg.others l hl)
  directories l := (hg'.directories l).trans (hg.directories l)

theorem Keeps.put (htree : h.IsTree) (hplace : h.node? place = some .directory) (hs : s ∈ names)
    (hnode : h.node? (place ++ [s]) ≠ some .directory) (data : ByteArray) (aged : Bool) :
    Keeps place names h (h.put (place ++ [s]) (.file data aged)) where
  tree := htree.put hplace (.inr hnode)
  others l hl := node?_put_of_ne (hl s hs)
  directories l := by
    by_cases hl : l = place ++ [s]
    · subst hl
      rw [node?_put_self (by simp)]
      exact iff_of_false (by simp) hnode
    · rw [node?_put_of_ne hl]

theorem Keeps.erase (htree : h.IsTree) (hs : s ∈ names)
    (hnode : h.node? (place ++ [s]) ≠ some .directory) :
    Keeps place names h (h.erase (place ++ [s])) where
  tree := htree.erase fun s' => htree.node?_below hnode (by simp)
  others l hl := node?_erase_of_ne (hl s hs)
  directories l := by
    by_cases hl : l = place ++ [s]
    · subst hl
      rw [node?_erase_self (by simp)]
      exact iff_of_false (by simp) hnode
    · rw [node?_erase_of_ne hl]

/-- Hosts that look alike still do after work on both that leaves the same nodes. -/
theorem Alike.of_keeps {g' : Host} (halike : Alike place names h h') (hg : Keeps place names h g)
    (hg' : Keeps place names h' g')
    (hsame : ∀ s ∈ names, g'.node? (place ++ [s]) = g.node? (place ++ [s])) :
    Alike place names g g' where
  tree := hg.tree
  tree' := hg'.tree
  directory := (hg.directories place).2 halike.directory
  directory' := (hg'.directories place).2 halike.directory'
  same := hsame

theorem Alike.put (halike : Alike place names h h') (hs : s ∈ names)
    (hnode : h.node? (place ++ [s]) ≠ some .directory) (data : ByteArray) (aged : Bool) :
    Alike place names (h.put (place ++ [s]) (.file data aged))
      (h'.put (place ++ [s]) (.file data aged)) := by
  have hnode' : h'.node? (place ++ [s]) ≠ some .directory := halike.same s hs ▸ hnode
  refine halike.of_keeps (.put halike.tree halike.directory hs hnode data aged)
    (.put halike.tree' halike.directory' hs hnode' data aged) fun s' hs' => ?_
  by_cases heq : place ++ [s'] = place ++ [s]
  · rw [heq, node?_put_self (by simp), node?_put_self (by simp)]
  · rw [node?_put_of_ne heq, node?_put_of_ne heq, halike.same s' hs']

theorem Alike.erase (halike : Alike place names h h') (hs : s ∈ names)
    (hnode : h.node? (place ++ [s]) ≠ some .directory) :
    Alike place names (h.erase (place ++ [s])) (h'.erase (place ++ [s])) := by
  have hnode' : h'.node? (place ++ [s]) ≠ some .directory := halike.same s hs ▸ hnode
  refine halike.of_keeps (.erase halike.tree hs hnode) (.erase halike.tree' hs hnode')
    fun s' hs' => ?_
  by_cases heq : place ++ [s'] = place ++ [s]
  · rw [heq, node?_erase_self (by simp), node?_erase_self (by simp)]
  · rw [node?_erase_of_ne heq, node?_erase_of_ne heq, halike.same s' hs']

/-! ## Running in step -/

/-- What the same work on two hosts gives: the same result, hosts that look alike, and nothing
changed but under the names. -/
structure InStep {α : Type} (place : Location) (names : List RawText) (h : Host) (r r' : α × Host) :
    Prop where
  result : r'.1 = r.1
  alike : Alike place names r.2 r'.2
  keeps : Keeps place names h r.2

theorem InStep.pure {α : Type} (halike : Alike place names h h') (a : α) :
    InStep place names h (a, h) (a, h') := ⟨rfl, halike, .refl halike.tree⟩

/-- A change of a file that succeeds on both hosts or fails on both for the same reason. -/
theorem InStep.change (f : Host → Except HostError Host) (next : Host → Host)
    (halike : Alike place names h h') (hf : f h' = (f h).map fun _ => next h')
    (hnext : ∀ g, f h = .ok g → Alike place names g (next h') ∧ Keeps place names h g) :
    InStep place names h (h.change f) (h'.change f) := by
  rw [Host.change, Host.change, hf]
  cases hfh : f h with
  | error e => exact .pure halike _
  | ok g =>
    obtain ⟨halike', hkeeps⟩ := hnext g hfh
    exact ⟨rfl, halike', hkeeps⟩

theorem Alike.inStep_writeFile (halike : Alike place names h h') (hs : s ∈ names)
    (hpath : locate path = place ++ [s]) (data : ByteArray) :
    InStep place names h (h.change (·.writeFile path data))
      (h'.change (·.writeFile path data)) := by
  refine .change (fun h => h.writeFile path data)
    (fun h => h.put (place ++ [s]) (.file data false)) halike
    (halike.writeFile hs hpath data) fun g hg => ?_
  obtain ⟨rfl, -, -, -, -, -, hnode⟩ := halike.tree.writeFile_ok hg
  rw [hpath] at hnode ⊢
  exact ⟨halike.put hs hnode data false, .put halike.tree halike.directory hs hnode data false⟩

theorem eq_erase_of_remove (hremove : h.remove path = .ok g) : g = h.erase (locate path) := by
  rw [Host.remove] at hremove
  split at hremove
  · exact (Except.ok.inj hremove).symm
  · split at hremove
    · exact (Except.ok.inj hremove).symm
    · cases hremove
  · cases hremove

theorem Alike.inStep_remove (halike : Alike place names h h') (hs : s ∈ names)
    (hpath : locate path = place ++ [s]) (hnode : h.node? (place ++ [s]) ≠ some .directory) :
    InStep place names h (h.change (·.remove path)) (h'.change (·.remove path)) := by
  refine .change (fun h => h.remove path) (fun h => h.erase (place ++ [s])) halike
    (halike.remove hs hpath hnode) fun g hg => ?_
  rw [eq_erase_of_remove hg, hpath]
  exact ⟨halike.erase hs hnode, .erase halike.tree hs hnode⟩

end Easel.Host
