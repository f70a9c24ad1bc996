import Easel.Host.Access
import Easel.Proofs.Lookup
import Mathlib.Data.List.Induction

/-!
# Hosts as trees

A host is a tree if everything but the root lies in a directory (`Host.IsTree`).  In a tree a path
leads to the node at its location, unless the path or a name on it is too long (`find_eq_ok_iff`).
Each operation that succeeds makes one change to the nodes and keeps the tree: a written file is put
in place (`IsTree.writeFile`), a removed one is taken away (`IsTree.remove`).  Making directories,
whether it succeeds or not, changes no file (`IsTree.makeDirs`).
-/

namespace Easel

/-- No operation refuses the path for its length, for a name on it or for a zero character. -/
structure Admits (path : RawText) : Prop where
  fault : pathFault? path = none
  names : ∀ s ∈ locate path, s.size ≤ maxNameSize

namespace Host

/-- Everything but the root lies in a directory. -/
def IsTree (h : Host) : Prop :=
  ∀ l segment n, h.node? (l ++ [segment]) = some n → h.node? l = some .directory

/-- The content of the file at a location, and whether its time was set back. -/
def file? (h : Host) (l : Location) : Option (ByteArray × Bool) :=
  match h.node? l with
  | some (.file data aged) => some (data, aged)
  | _ => none

variable {h h' : Host} {l l' rest : Location} {segment path : RawText} {n : Node} {data : ByteArray}

/-! ## Changes to the nodes -/

@[simp]
theorem node?_nil (h : Host) : h.node? [] = some .directory := if_pos rfl

theorem node?_put_self (hl : l ≠ []) : (h.put l n).node? l = some n := by
  rw [node?, if_neg hl, put, List.lookup_cons_self]

theorem node?_put_of_ne (hne : l' ≠ l) : (h.put l n).node? l' = h.node? l' := by
  rw [node?, node?, put, lookup_put_of_ne hne]

theorem node?_erase_self (hl : l ≠ []) : (h.erase l).node? l = none := by
  rw [node?, if_neg hl, erase, lookup_erase_self]

theorem node?_erase_of_ne (hne : l' ≠ l) : (h.erase l).node? l' = h.node? l' := by
  rw [node?, node?, erase, lookup_erase_of_ne hne]

theorem file?_of_node? (hnode : h'.node? l = h.node? l) : h'.file? l = h.file? l := by
  rw [file?, file?, hnode]

theorem file?_eq_some_iff {aged : Bool} :
    h.file? l = some (data, aged) ↔ h.node? l = some (.file data aged) := by
  rw [file?]
  rcases h.node? l with _ | ⟨_, _⟩ | _ <;> simp

/-! ## Trees -/

theorem isTree_of_entries
    (hentries : ∀ e ∈ h.entries, h.node? e.1.dropLast = some .directory) : h.IsTree := by
  intro l segment n hnode
  rw [node?, if_neg (by simp)] at hnode
  simpa using hentries _ (mem_of_lookup_eq_some hnode)

theorem IsTree.directory_above (htree : h.IsTree) (hnode : h.node? (l ++ rest) = some n)
    (hrest : rest ≠ []) : h.node? l = some .directory := by
  induction rest using List.reverseRecOn generalizing n with
  | nil => exact absurd rfl hrest
  | append_singleton front segment ih =>
    rw [← List.append_assoc] at hnode
    have hfront := htree _ _ _ hnode
    by_cases hnil : front = []
    · simpa [hnil] using hfront
    · exact ih hfront hnil

theorem IsTree.node?_below (htree : h.IsTree) (hl : h.node? l ≠ some .directory)
    (hrest : rest ≠ []) : h.node? (l ++ rest) = none := by
  cases hnode : h.node? (l ++ rest) with
  | none => rfl
  | some n => exact absurd (htree.directory_above hnode hrest) hl

/-- A node may be put into a directory, unless a file would take the place of a directory. -/
theorem IsTree.put (htree : h.IsTree) (hl : h.node? l = some .directory)
    (hn : n = .directory ∨ h.node? (l ++ [segment]) ≠ some .directory) :
    (h.put (l ++ [segment]) n).IsTree := by
  intro l' segment' n' hnode
  by_cases hparent : l' = l ++ [segment]
  · subst hparent
    rw [node?_put_self (by simp)]
    rw [node?_put_of_ne (by simp)] at hnode
    rcases hn with rfl | hn
    · rfl
    · exact absurd (htree _ _ _ hnode) hn
  · rw [node?_put_of_ne hparent]
    by_cases hself : l' ++ [segment'] = l ++ [segment]
    · rw [(List.append_inj' hself rfl).1]
      exact hl
    · rw [node?_put_of_ne hself] at hnode
      exact htree _ _ _ hnode

/-- A node with nothing below it may be taken away. -/
theorem IsTree.erase (htree : h.IsTree) (hbelow : ∀ s, h.node? (l ++ [s]) = none) :
    (h.erase l).IsTree := by
  intro l' segment' n' hnode
  have hself : l' ++ [segment'] ≠ l := by
    intro heq
    subst heq
    rw [node?_erase_self (by simp)] at hnode
    cases hnode
  rw [node?_erase_of_ne hself] at hnode
  have hparent : l' ≠ l := by
    rintro rfl
    rw [hbelow] at hnode
    cases hnode
  rw [node?_erase_of_ne hparent]
  exact htree _ _ _ hnode

/-! ## Finding -/

theorem IsTree.walk_eq_ok_iff (htree : h.IsTree) :
    h.walk l rest = .ok n ↔ h.node? (l ++ rest) = some n ∧ ∀ s ∈ rest, s.size ≤ maxNameSize := by
  induction rest generalizing l with
  | nil =>
    rw [walk, List.append_nil]
    cases h.node? l <;> simp
  | cons segment rest ih =>
    rw [walk]
    cases hl : h.node? l with
    | none =>
      have hnone : h.node? (l ++ segment :: rest) = none :=
        htree.node?_below (by simp [hl]) (by simp)
      simp [hnone]
    | some node =>
      cases node with
      | file data aged =>
        have hnone : h.node? (l ++ segment :: rest) = none :=
          htree.node?_below (by simp [hl]) (by simp)
        simp [hnone]
      | directory =>
        by_cases hlong : maxNameSize < segment.size
        · simp [hlong, Nat.not_le.2 hlong]
        · simp only [if_neg hlong, ih, List.append_assoc, List.singleton_append,
            List.forall_mem_cons, Nat.not_lt.1 hlong, true_and]

theorem IsTree.node?_of_walk_missing (htree : h.IsTree) (hwalk : h.walk l rest = .error .missing) :
    h.node? (l ++ rest) = none := by
  induction rest generalizing l with
  | nil =>
    rw [walk] at hwalk
    rw [List.append_nil]
    cases hl : h.node? l with
    | none => rfl
    | some node => simp [hl] at hwalk
  | cons segment rest ih =>
    rw [walk] at hwalk
    cases hl : h.node? l with
    | none => exact htree.node?_below (by simp [hl]) (by simp)
    | some node =>
      cases node with
      | file data aged => exact htree.node?_below (by simp [hl]) (by simp)
      | directory =>
        simp only [hl] at hwalk
        split at hwalk
        · cases hwalk
        · simpa using ih hwalk

/-- Below a directory that is there, a walk looks at one more name. -/
theorem walk_concat (hwalk : h.walk l rest = .ok .directory) :
    h.walk l (rest ++ [segment]) =
      if maxNameSize < segment.size then .error .tooLong
      else h.walk (l ++ rest ++ [segment]) [] := by
  induction rest generalizing l with
  | nil =>
    rw [walk] at hwalk
    cases hl : h.node? l with
    | none => simp [hl] at hwalk
    | some node =>
      simp only [hl, Except.ok.injEq] at hwalk
      subst hwalk
      simp [walk, hl]
  | cons first rest ih =>
    rw [walk] at hwalk
    cases hl : h.node? l with
    | none => simp [hl] at hwalk
    | some node =>
      cases node with
      | file data aged => simp [hl] at hwalk
      | directory =>
        simp only [hl] at hwalk
        split at hwalk
        · cases hwalk
        · rename_i hshort
          have hstep : h.walk l (first :: (rest ++ [segment])) =
              h.walk (l ++ [first]) (rest ++ [segment]) := by
            rw [walk, hl]
            exact if_neg hshort
          rw [List.cons_append, hstep, ih hwalk, List.append_assoc l, List.singleton_append]

theorem pathFault?_ne_missing : pathFault? path ≠ some .missing := by
  rw [pathFault?]
  split
  · simp
  · split <;> simp

/-- In a tree a path leads to the node at its location. -/
theorem IsTree.find_eq_ok_iff (htree : h.IsTree) :
    h.find path = .ok n ↔ Admits path ∧ h.node? (locate path) = some n := by
  rw [find]
  cases hfault : pathFault? path with
  | some cause =>
    refine iff_of_false (by simp) fun hadmits => ?_
    rw [hadmits.1.fault] at hfault
    cases hfault
  | none =>
    show h.walk [] (locate path) = .ok n ↔ _
    rw [htree.walk_eq_ok_iff, List.nil_append]
    exact ⟨fun hn => ⟨⟨hfault, hn.2⟩, hn.1⟩, fun hn => ⟨hn.2, hn.1.names⟩⟩

theorem IsTree.node?_of_find_missing (htree : h.IsTree) (hfind : h.find path = .error .missing) :
    h.node? (locate path) = none := by
  rw [find] at hfind
  cases hfault : pathFault? path with
  | some cause =>
    simp only [hfault, Except.error.injEq] at hfind
    exact absurd (hfind ▸ hfault) pathFault?_ne_missing
  | none =>
    simp only [hfault] at hfind
    simpa using htree.node?_of_walk_missing hfind

theorem IsTree.readFile_eq_ok_iff (htree : h.IsTree) :
    h.readFile path = .ok data ↔
      Admits path ∧ ∃ aged, h.file? (locate path) = some (data, aged) := by
  simp only [file?_eq_some_iff]
  constructor
  · intro hread
    rw [readFile] at hread
    split at hread
    · rename_i content aged hfind
      cases hread
      obtain ⟨hadmits, hnode⟩ := htree.find_eq_ok_iff.1 hfind
      exact ⟨hadmits, aged, hnode⟩
    · cases hread
    · cases hread
  · rintro ⟨hadmits, aged, hnode⟩
    rw [readFile, htree.find_eq_ok_iff.2 ⟨hadmits, hnode⟩]

/-! ## Writing -/

/-- A file that was written is at its location, in a directory and in place of no directory. -/
theorem IsTree.writeFile_ok (htree : h.IsTree) (hwrite : h.writeFile path data = .ok h') :
    h' = h.put (locate path) (.file data false) ∧ Admits path ∧
      ∃ l segment, locate path = l ++ [segment] ∧ h.node? l = some .directory ∧
        h.node? (locate path) ≠ some .directory := by
  rw [writeFile] at hwrite
  split at hwrite
  · rename_i content aged hfind
    cases hwrite
    obtain ⟨hadmits, hnode⟩ := htree.find_eq_ok_iff.1 hfind
    refine ⟨rfl, hadmits, ?_⟩
    rcases List.eq_nil_or_concat (locate path) with hnil | ⟨l, segment, hl⟩
    · simp [hnil] at hnode
    · rw [List.concat_eq_append] at hl
      rw [hl] at hnode ⊢
      exact ⟨l, segment, rfl, htree _ _ _ hnode, by simp [hnode]⟩
  · cases hwrite
  · rename_i hfind
    split at hwrite
    · rename_i hparent
      cases hwrite
      have hnode := htree.node?_of_find_missing hfind
      rcases List.eq_nil_or_concat (locate path) with hnil | ⟨l, segment, hl⟩
      · simp [hnil] at hnode
      · rw [List.concat_eq_append] at hl
        rw [hl, List.dropLast_concat] at hparent
        obtain ⟨hdirectory, hnames⟩ := htree.walk_eq_ok_iff.1 hparent
        have hfault : pathFault? path = none := by
          cases hfault : pathFault? path with
          | none => rfl
          | some cause =>
            rw [find, hfault] at hfind
            cases hfind
            exact absurd hfault pathFault?_ne_missing
        have hshort : ¬ maxNameSize < segment.size := by
          intro hlong
          rw [find, hfault] at hfind
          simp only [hl, walk_concat hparent, if_pos hlong] at hfind
          cases hfind
        refine ⟨rfl, ⟨hfault, ?_⟩, l, segment, hl, hdirectory, by simp [hnode]⟩
        intro s hs
        rw [hl] at hs
        rcases List.mem_append.1 hs with hs | hs
        · exact hnames s hs
        · rw [List.mem_singleton.1 hs]
          exact Nat.not_lt.1 hshort
    · cases hwrite
  · cases hwrite

theorem IsTree.writeFile (htree : h.IsTree) (hwrite : h.writeFile path data = .ok h') :
    h'.IsTree ∧ Admits path ∧ h'.file? (locate path) = some (data, false) ∧
      ∀ l, l ≠ locate path → h'.file? l = h.file? l := by
  obtain ⟨rfl, hadmits, l, segment, hl, hdirectory, hnode⟩ := htree.writeFile_ok hwrite
  refine ⟨?_, hadmits, ?_, fun l' hl' => file?_of_node? (node?_put_of_ne hl')⟩
  · rw [hl] at hnode ⊢
    exact htree.put hdirectory (.inr hnode)
  · rw [file?_eq_some_iff, node?_put_self (by simp [hl])]

/-! ## Making directories -/

theorem IsTree.makeDirsFrom (htree : h.IsTree) (hl : h.node? l = some .directory) :
    (h.makeDirsFrom l rest).2.IsTree ∧ ∀ l', (h.makeDirsFrom l rest).2.file? l' = h.file? l' := by
  induction rest generalizing h l with
  | nil => exact ⟨htree, fun _ => rfl⟩
  | cons segment rest ih =>
    rw [Host.makeDirsFrom]
    cases hnext : h.node? (l ++ [segment]) with
    | some node =>
      cases node with
      | file data aged => exact ⟨htree, fun _ => rfl⟩
      | directory => exact ih htree hnext
    | none =>
      simp only
      split
      · exact ⟨htree, fun _ => rfl⟩
      · obtain ⟨hrest, hfiles⟩ := ih (htree.put (n := .directory) hl (.inl rfl))
          (node?_put_self (by simp))
        refine ⟨hrest, fun l' => (hfiles l').trans ?_⟩
        by_cases hself : l' = l ++ [segment]
        · subst hself
          rw [file?, file?, node?_put_self (by simp), hnext]
        · exact file?_of_node? (node?_put_of_ne hself)

/-- Making directories changes no file, whether it succeeds or not. -/
theorem IsTree.makeDirs (htree : h.IsTree) (path : RawText) :
    (h.makeDirs path).2.IsTree ∧ ∀ l, (h.makeDirs path).2.file? l = h.file? l :=
  htree.makeDirsFrom (node?_nil h)

/-! ## Removing -/

theorem node?_of_below_eq_nil (hbelow : (h.below l).isEmpty = true) (hrest : rest ≠ []) :
    h.node? (l ++ rest) = none := by
  rw [node?, if_neg (by simp [hrest]), List.lookup_eq_none_iff]
  intro e he
  rw [bne_iff_ne]
  intro heq
  have hmem : e ∈ h.below l := by
    rw [below, List.mem_filter, ← heq]
    exact ⟨he, by simp [hrest]⟩
  rw [List.isEmpty_iff.1 hbelow] at hmem
  cases hmem

/-- What was removed is gone, and no other file is. -/
theorem IsTree.remove (htree : h.IsTree) (hremove : h.remove path = .ok h') :
    h'.IsTree ∧ h'.file? (locate path) = none ∧ ∀ l, l ≠ locate path → h'.file? l = h.file? l := by
  have herase : h' = h.erase (locate path) ∧ ∀ s, h.node? (locate path ++ [s]) = none := by
    rw [Host.remove] at hremove
    split at hremove
    · rename_i data aged hfind
      cases hremove
      obtain ⟨-, hnode⟩ := htree.find_eq_ok_iff.1 hfind
      exact ⟨rfl, fun s => htree.node?_below (by simp [hnode]) (by simp)⟩
    · split at hremove
      · rename_i hbelow
        cases hremove
        exact ⟨rfl, fun s => node?_of_below_eq_nil hbelow (by simp)⟩
      · cases hremove
    · cases hremove
  obtain ⟨rfl, hbelow⟩ := herase
  refine ⟨htree.erase hbelow, ?_, fun l hl => file?_of_node? (node?_erase_of_ne hl)⟩
  by_cases hnil : locate path = []
  · rw [hnil, file?, node?_nil]
  · rw [file?, node?_erase_self hnil]

/-- If what is to be removed is missing, there is no file. -/
theorem IsTree.remove_missing (htree : h.IsTree) {e : HostError}
    (hremove : h.remove path = .error e) (he : e.cause = .missing) : h.file? (locate path) = none := by
  rw [Host.remove] at hremove
  split at hremove
  · cases hremove
  · split at hremove
    · cases hremove
    · cases hremove
      cases he
  · rename_i cause hfind
    cases hremove
    subst he
    rw [file?, htree.node?_of_find_missing hfind]

end Host

end Easel
