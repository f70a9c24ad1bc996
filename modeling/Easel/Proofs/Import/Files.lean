import Easel.Command.Check
import Easel.Proofs.Host.Tree
import Easel.Proofs.Import.Resolve
import Easel.Proofs.Path.Join
import Mathlib.Data.Nat.Digits.Lemmas

/-!
# Imports between the files of a host

Below a directory files have names, and one file may have several: a name can leave the directory
and come back.  The names that a file imports lead to the files that it imports (`importsOf_join`),
so the graph of names lies over the graph of files: what one name reaches leads to what its file
reaches, and the other way round.  There are only so many paths that a host takes, and a chain of
imports in which no file comes twice is not longer.  Hence a resolution below a directory succeeds
exactly if the files that are reached can be read and form no cycle (`resolved_cases`).
-/

namespace Easel.Import

open Relation Command

variable {h : Host} {root name file entry a b f g : RawText}

/-- The text of a file of a host. -/
def sourceAt (h : Host) (file : RawText) : Except HostError String :=
  (h.readFile file).map Text.decode

/-- The text of a file below a directory. -/
def sourceBelow (h : Host) (root name : RawText) : Except HostError String :=
  sourceAt h (Path.join root name)

/-- Every file that is reached can be read, and none reaches itself. -/
def Resolvable (h : Host) (file : RawText) : Prop :=
  (∀ f, Reaches (sourceAt h) file f → Readable (sourceAt h) f) ∧ Acyclic (sourceAt h) file

/-! ## Names of files -/

theorem file_of_sourceAt (htree : h.IsTree) {source : String}
    (hsource : sourceAt h file = .ok source) :
    Admits file ∧ ∃ data aged, h.file? (locate file) = some (data, aged) := by
  rw [sourceAt] at hsource
  cases hread : h.readFile file with
  | error e =>
    rw [hread] at hsource
    cases hsource
  | ok data =>
    obtain ⟨hadmits, aged, hfile⟩ := htree.readFile_eq_ok_iff.1 hread
    exact ⟨hadmits, data, aged, hfile⟩

/-- Segments that lead upwards take away what was there last. -/
theorem exists_drop_of_up {segments stack : List RawText} (hsegments : ∀ s ∈ segments, s = "..")
    (hstack : Path.Settled true stack) :
    ∃ k, segments.foldl (Path.push true) stack = stack.drop k := by
  induction segments generalizing stack with
  | nil => exact ⟨0, rfl⟩
  | cons s rest ih =>
    obtain ⟨rfl, hrest⟩ := List.forall_mem_cons.1 hsegments
    cases stack with
    | nil =>
      obtain ⟨k, hk⟩ := ih hrest hstack
      exact ⟨k, hk⟩
    | cons t below =>
      have ht : t ≠ ".." := fun h => Bool.noConfusion (hstack.2.1 h).1
      have hpush : Path.push true (t :: below) ".." = below := by
        rw [Path.push.eq_def, if_neg (by decide), if_pos rfl]
        exact if_neg ht
      obtain ⟨k, hk⟩ := ih hrest hstack.2.2
      exact ⟨k + 1, by rw [List.foldl_cons, hpush, hk, List.drop_succ_cons]⟩

/-- A name that leads from a directory to a file ends with a plain segment: without one it leads
only to directories above. -/
theorem exists_segments_of_readable (htree : h.IsTree) (hroot : Path.isAbsolute root = true)
    (hdirectory : h.node? (locate root) = some .directory) (hname : Path.IsName name)
    (hreadable : Readable (sourceBelow h root) name) :
    ∃ (segments : List RawText) (s : RawText), Path.cleanSegments name = segments ++ [s] ∧
      s ≠ ".." := by
  obtain ⟨source, hsource⟩ := hreadable
  obtain ⟨-, data, aged, hfile⟩ := file_of_sourceAt htree hsource
  have hnode := Host.file?_eq_some_iff.1 hfile
  rw [locate, Path.cleanSegments_join_of_absolute hroot, Path.follow_eq_foldl _ hname.relative]
    at hnode
  obtain ⟨stack, hstack, hsegments⟩ := Path.exists_settled name
  by_contra hnone
  have hup : ∀ s ∈ Path.cleanSegments name, s = ".." := by
    cases stack with
    | nil => simp [hsegments]
    | cons s below =>
      rw [List.reverse_cons] at hsegments
      have hs : s = ".." := by
        by_contra hs
        exact hnone ⟨_, _, hsegments, hs⟩
      intro t ht
      rw [hsegments, List.mem_append, List.mem_reverse, List.mem_singleton] at ht
      exact ht.elim ((hstack.2.1 hs).2 t) fun h => h.trans hs
  obtain ⟨rootStack, hrootStack, hrootSegments⟩ := Path.exists_settled root
  rw [hroot] at hrootStack
  rw [hrootSegments, List.reverse_reverse] at hnode
  obtain ⟨k, hk⟩ := exists_drop_of_up hup hrootStack
  rw [hk] at hnode
  have hlocate : locate root = (rootStack.drop k).reverse ++ (rootStack.take k).reverse := by
    rw [locate, hrootSegments, ← List.reverse_append, List.take_append_drop]
  rw [hlocate] at hdirectory
  have habove : h.node? (rootStack.drop k).reverse = some .directory := by
    by_cases hnil : (rootStack.take k).reverse = []
    · rwa [hnil, List.append_nil] at hdirectory
    · exact htree.directory_above hdirectory hnil
  rw [habove] at hnode
  cases hnode

/-- The names that a file imports below a directory lead to the files that it imports. -/
theorem importsOf_join (htree : h.IsTree) (hroot : Path.isAbsolute root = true)
    (hdirectory : h.node? (locate root) = some .directory) (hname : Path.IsName name)
    (hreadable : Readable (sourceBelow h root) name) (source : String) :
    (importsOf name source).map (Path.join root) = importsOf (Path.join root name) source := by
  obtain ⟨segments, s, hsegments, hs⟩ :=
    exists_segments_of_readable htree hroot hdirectory hname hreadable
  rw [importsOf, importsOf, List.map_map]
  refine List.map_congr_left fun p _ => ?_
  have hrelative := (Path.isAbsolute_parent name).trans hname.relative
  show Path.join root (Path.join (Path.parent name) p) = _
  rw [Path.join_assoc hroot hrelative (Path.parent_ne_empty name),
    Path.join_parent hroot hname hsegments hs]

/-! ## The graph of names over the graph of files -/

section Names

variable (htree : h.IsTree) (hroot : Path.isAbsolute root = true)
  (hdirectory : h.node? (locate root) = some .directory)

include htree hroot hdirectory

theorem imports_join (ha : Path.IsName a) (hab : Imports (sourceBelow h root) a b) :
    Path.IsName b ∧ Imports (sourceAt h) (Path.join root a) (Path.join root b) := by
  obtain ⟨source, hsource, hb⟩ := hab
  refine ⟨?_, source, hsource, ?_⟩
  · obtain ⟨p, -, rfl⟩ := List.mem_map.1 hb
    have hrelative := (Path.isAbsolute_parent a).trans ha.relative
    exact Path.isName_join hrelative (Path.parent_ne_empty a) _
  · rw [← importsOf_join htree hroot hdirectory ha ⟨source, hsource⟩]
    exact List.mem_map_of_mem hb

theorem exists_name_of_imports (ha : Path.IsName a)
    (hag : Imports (sourceAt h) (Path.join root a) g) :
    ∃ b, Imports (sourceBelow h root) a b ∧ Path.join root b = g := by
  obtain ⟨source, hsource, hg⟩ := hag
  rw [← importsOf_join htree hroot hdirectory ha ⟨source, hsource⟩] at hg
  obtain ⟨b, hb, rfl⟩ := List.mem_map.1 hg
  exact ⟨b, ⟨source, hsource, hb⟩, rfl⟩

theorem transGen_join (ha : Path.IsName a) (hab : TransGen (Imports (sourceBelow h root)) a b) :
    Path.IsName b ∧
      TransGen (Imports (sourceAt h)) (Path.join root a) (Path.join root b) := by
  induction hab with
  | single hedge =>
    obtain ⟨hb, hedge'⟩ := imports_join htree hroot hdirectory ha hedge
    exact ⟨hb, .single hedge'⟩
  | tail _ hedge ih =>
    obtain ⟨hb, hgen⟩ := ih
    obtain ⟨hc, hedge'⟩ := imports_join htree hroot hdirectory hb hedge
    exact ⟨hc, hgen.tail hedge'⟩

theorem exists_name_of_transGen (ha : Path.IsName a)
    (hag : TransGen (Imports (sourceAt h)) (Path.join root a) g) :
    ∃ b, TransGen (Imports (sourceBelow h root)) a b ∧ Path.join root b = g := by
  induction hag with
  | single hedge =>
    obtain ⟨b, hb, heq⟩ := exists_name_of_imports htree hroot hdirectory ha hedge
    exact ⟨b, .single hb, heq⟩
  | tail _ hedge ih =>
    obtain ⟨b, hab, rfl⟩ := ih
    have hb := (transGen_join htree hroot hdirectory ha hab).1
    obtain ⟨c, hc, heq⟩ := exists_name_of_imports htree hroot hdirectory hb hedge
    exact ⟨c, hab.tail hc, heq⟩

theorem reaches_join (ha : Path.IsName a) (hab : Reaches (sourceBelow h root) a b) :
    Path.IsName b ∧ Reaches (sourceAt h) (Path.join root a) (Path.join root b) := by
  rcases reflTransGen_iff_eq_or_transGen.1 hab with rfl | hgen
  · exact ⟨ha, .refl⟩
  · obtain ⟨hb, hgen'⟩ := transGen_join htree hroot hdirectory ha hgen
    exact ⟨hb, hgen'.to_reflTransGen⟩

theorem exists_name_of_reaches (ha : Path.IsName a)
    (hag : Reaches (sourceAt h) (Path.join root a) g) :
    ∃ b, Reaches (sourceBelow h root) a b ∧ Path.join root b = g := by
  rcases reflTransGen_iff_eq_or_transGen.1 hag with rfl | hgen
  · exact ⟨a, .refl, rfl⟩
  · obtain ⟨b, hab, heq⟩ := exists_name_of_transGen htree hroot hdirectory ha hgen
    exact ⟨b, hab.to_reflTransGen, heq⟩

/-- A file that reaches itself has no name in a sorted list: it would have another name before every
name it has. -/
theorem not_transGen_of_sorted {order : List RawText} (hsorted : Sorted (sourceBelow h root) order)
    (hnames : ∀ a ∈ order, Path.IsName a) (ha : a ∈ order) :
    ¬ TransGen (Imports (sourceAt h)) (Path.join root a) (Path.join root a) := by
  intro hcycle
  obtain ⟨before, after, hsplit⟩ := List.append_of_mem ha
  induction hlength : before.length using Nat.strong_induction_on generalizing a before after with
  | _ n ih =>
    obtain ⟨b, hab, heq⟩ :=
      exists_name_of_transGen htree hroot hdirectory (hnames a ha) hcycle
    obtain ⟨front, back, rfl⟩ := List.append_of_mem (hsorted.mem_before hsplit hab)
    have hb : b ∈ order := by simp [hsplit]
    refine ih front.length ?_ hb (heq ▸ hcycle) front (back ++ a :: after) ?_ rfl
    · rw [← hlength, List.length_append, List.length_cons]
      omega
    · rw [hsplit, List.append_assoc, List.cons_append]

/-- If the file of a name is resolvable, no file comes twice in a chain from it. -/
theorem nodup_map_join (hentry : Path.IsName entry)
    (hresolvable : Resolvable h (Path.join root entry)) {chain : List RawText}
    (hchain : Visiting (sourceBelow h root) entry chain name) :
    (chain.map (Path.join root)).Nodup := by
  have hroute := hchain.route.chain.left_of_append
  have hpairs : chain.Pairwise (TransGen (Imports (sourceBelow h root))) :=
    (hroute.imp fun _ _ => TransGen.single).pairwise
  have hreached : ∀ a ∈ chain, Reaches (sourceBelow h root) entry a :=
    fun a ha => hchain.route.reaches (List.mem_append_left _ ha)
  refine List.pairwise_map.2 (hpairs.imp_of_mem fun {a b} ha _ hab heq => ?_)
  obtain ⟨hname, hfile⟩ := reaches_join htree hroot hdirectory hentry (hreached a ha)
  have hcycle := (transGen_join htree hroot hdirectory hname hab).2
  exact hresolvable.2 _ hfile (heq ▸ hcycle)

end Names

/-! ## The number of paths -/

/-- The number of a glyph: that of its character, or one above all characters. -/
def glyphNumber : Text.Glyph → Nat
  | .char c => c.toNat
  | .stray b => 0x110000 + b.toNat

theorem toNat_char_lt (c : Char) : c.toNat < 0x110000 := by
  have hvalid : c.toNat < 0xd800 ∨ 0xdfff < c.toNat ∧ c.toNat < 0x110000 := c.valid
  omega

theorem glyphNumber_lt (g : Text.Glyph) : glyphNumber g + 1 < 2 ^ 22 := by
  cases g with
  | char c =>
    have hc := toNat_char_lt c
    simp only [glyphNumber]
    omega
  | stray b =>
    have hb := b.toNat_lt
    simp only [glyphNumber]
    omega

theorem glyphNumber_injective : Function.Injective glyphNumber := by
  intro g g' heq
  cases g with
  | char c =>
    have hc := toNat_char_lt c
    cases g' with
    | char c' => exact congrArg _ (Char.toNat_inj.1 heq)
    | stray b =>
      simp only [glyphNumber] at heq
      omega
  | stray b =>
    cases g' with
    | char c' =>
      have hc := toNat_char_lt c'
      simp only [glyphNumber] at heq
      omega
    | stray b' => exact congrArg _ (UInt8.toNat_inj.1 (Nat.add_left_cancel heq))

/-- The number of a text, whose digits are its glyphs. -/
def textNumber (r : RawText) : Nat := Nat.ofDigits (2 ^ 22) (r.glyphs.map (glyphNumber · + 1))

theorem textNumber_injective : Function.Injective textNumber := by
  have hdigits (r : RawText) :
      Nat.digits (2 ^ 22) (textNumber r) = r.glyphs.map (glyphNumber · + 1) := by
    refine Nat.digits_ofDigits _ (by norm_num) _ (fun n hn => ?_) fun hne => ?_
    · obtain ⟨g, -, rfl⟩ := List.mem_map.1 hn
      exact glyphNumber_lt g
    · rw [List.getLast_map]
      exact Nat.succ_ne_zero _
  intro r r' heq
  have hmap := (hdigits r).symm.trans ((congrArg _ heq).trans (hdigits r'))
  have hglyphs := List.map_injective_iff.2
    (fun g g' h => glyphNumber_injective (Nat.succ.inj h)) hmap
  exact congrArg RawText.mk hglyphs

theorem length_glyphs_le (r : RawText) : r.glyphs.length ≤ r.size := by
  obtain ⟨gs⟩ := r
  show gs.length ≤ (gs.flatMap Text.Glyph.bytes).length
  induction gs with
  | nil => exact Nat.zero_le _
  | cons g rest ih =>
    have hg : 0 < g.bytes.length := by
      cases g with
      | char c =>
        rw [Text.Glyph.bytes, String.length_utf8EncodeChar]
        exact c.utf8Size_pos
      | stray b => exact Nat.one_pos
    rw [List.flatMap_cons, List.length_cons, List.length_append]
    omega

theorem textNumber_lt {r : RawText} (hr : r.size ≤ maxPathSize) :
    textNumber r < (2 ^ 22) ^ maxPathSize := by
  have hlength : r.glyphs.length ≤ maxPathSize := (length_glyphs_le r).trans hr
  have hlt : textNumber r < (2 ^ 22) ^ (r.glyphs.map (glyphNumber · + 1)).length := by
    refine Nat.ofDigits_lt_base_pow_length (by norm_num) fun n hn => ?_
    obtain ⟨g, -, rfl⟩ := List.mem_map.1 hn
    exact glyphNumber_lt g
  rw [List.length_map] at hlt
  exact hlt.trans_le (Nat.pow_le_pow_right (by norm_num) hlength)

theorem pow_lt_importLimit : (2 ^ 22) ^ maxPathSize < importLimit := by
  unfold importLimit
  -- The numbers are too large to be written out.
  generalize maxPathSize = n
  have hpow : (2 ^ 22) ^ n = 2 ^ (22 * n) := (Nat.pow_mul 2 22 n).symm
  rw [hpow]
  exact Nat.pow_lt_pow_right Nat.one_lt_two (by omega)

/-- Paths of the size that a host takes are fewer than the limit of a chain. -/
theorem length_lt_of_nodup {files : List RawText} (hnodup : files.Nodup)
    (hsize : ∀ f ∈ files, f.size ≤ maxPathSize) : files.length < importLimit := by
  have hsubset : files.map textNumber ⊆ List.range ((2 ^ 22) ^ maxPathSize) := by
    intro n hn
    obtain ⟨f, hf, rfl⟩ := List.mem_map.1 hn
    exact List.mem_range.2 (textNumber_lt (hsize f hf))
  have hlength :=
    (List.subperm_of_subset (hnodup.map textNumber_injective) hsubset).length_le
  rw [List.length_map, List.length_range] at hlength
  exact hlength.trans_lt pow_lt_importLimit

/-! ## Resolutions -/

/-- The files that a resolution from a file below its directory lists, by name. -/
def resolved (h : Host) (input : RawText) : Except (Error HostError) (List RawText) :=
  (Id.run (resolve importLimit (fun name => pure (sourceBelow h (Path.parent input) name))
    (Path.base input))).1

theorem resolved_eq (h : Host) (input : RawText) :
    resolved h input =
      match search (sourceBelow h (Path.parent input)) importLimit [] (Path.clean (Path.base input))
          {} with
      | (s, none) => .ok s.order
      | (_, some e) => .error e := by
  rw [resolved, resolve, Id.run_bind]
  rcases hs : search (sourceBelow h (Path.parent input)) importLimit []
    (Path.clean (Path.base input)) {} with ⟨s, _ | e⟩ <;>
  · rw [search] at hs
    rw [hs]
    rfl

theorem size_le_of_readable (htree : h.IsTree) (hreadable : Readable (sourceAt h) file) :
    file.size ≤ maxPathSize := by
  obtain ⟨source, hsource⟩ := hreadable
  have hfault := (file_of_sourceAt htree hsource).1.fault
  rw [pathFault?] at hfault
  split at hfault
  · cases hfault
  · split at hfault
    · cases hfault
    · omega

/-- A clean absolute path is its last segment, seen from its parent. -/
theorem join_parent_clean_base (hinput : Path.isAbsolute file = true)
    (hclean : Path.clean file = file) :
    Path.join (Path.parent file) (Path.clean (Path.base file)) = file := by
  by_cases hnil : Path.cleanSegments file = []
  · have hroot : file = "/" := by
      rw [← hclean, Path.clean, hinput, hnil]
      rfl
    rw [hroot]
    decide +kernel
  · obtain ⟨hname, hjoin, -⟩ := Path.join_parent_base hinput hclean hnil
    rw [hname.clean, hjoin]

/-- A readable file lies in a directory, in which its last segment is a name. -/
theorem directory_of_readable (htree : h.IsTree) (hinput : Path.isAbsolute file = true)
    (hclean : Path.clean file = file) (hreadable : Readable (sourceAt h) file) :
    Path.IsName (Path.clean (Path.base file)) ∧
      h.node? (locate (Path.parent file)) = some .directory := by
  obtain ⟨source, hsource⟩ := hreadable
  obtain ⟨-, data, aged, hfile⟩ := file_of_sourceAt htree hsource
  have hnode := Host.file?_eq_some_iff.1 hfile
  have hne : Path.cleanSegments file ≠ [] := by
    intro hnil
    rw [locate, hnil, Host.node?_nil] at hnode
    cases hnode
  obtain ⟨hname, -, hsegments⟩ := Path.join_parent_base hinput hclean hne
  rw [locate, hsegments] at hnode
  exact ⟨hname.clean.symm ▸ hname, htree _ _ _ hnode⟩

/-- The names that a sorted list gives to files lead to a sorted list of files. -/
theorem sorted_map_join (htree : h.IsTree) (hroot : Path.isAbsolute root = true)
    (hdirectory : h.node? (locate root) = some .directory) {order : List RawText}
    (hsorted : Sorted (sourceBelow h root) order) (hnames : ∀ a ∈ order, Path.IsName a) :
    Sorted (sourceAt h) (order.map (Path.join root)) := by
  intro before f after hsplit g hfg
  obtain ⟨front, back, rfl, rfl, hback⟩ := List.map_eq_append_iff.1 hsplit
  obtain ⟨a, rest, rfl, rfl, rfl⟩ := List.map_eq_cons_iff.1 hback
  obtain ⟨b, hb, rfl⟩ :=
    exists_name_of_imports htree hroot hdirectory (hnames a (by simp)) hfg
  exact List.mem_map_of_mem (hsorted front a rest rfl b hb)

/-- A resolution from a file succeeds exactly if the files it reaches can be read and form no cycle.
Then it gives names of these files, each after the files that it imports. -/
theorem resolved_cases (htree : h.IsTree) {input : RawText} (hinput : Path.isAbsolute input = true)
    (hclean : Path.clean input = input) :
    match resolved h input with
    | .ok names => Resolvable h input ∧
      (∀ f, f ∈ names.map (Path.join (Path.parent input)) ↔ Reaches (sourceAt h) input f) ∧
      Sorted (sourceAt h) (names.map (Path.join (Path.parent input)))
    | .error _ => ¬ Resolvable h input := by
  have hroot := (Path.isAbsolute_parent input).trans hinput
  have hentry := join_parent_clean_base hinput hclean
  set root := Path.parent input
  set entry := Path.clean (Path.base input)
  rw [resolved_eq]
  by_cases hreadable : Readable (sourceAt h) input
  · obtain ⟨hname, hdirectory⟩ := directory_of_readable htree hinput hclean hreadable
    have hsearch : Outcome (sourceBelow h root) entry (fun _ => ¬ Resolvable h input) [] [entry] {}
        (search (sourceBelow h root) importLimit [] entry {}) := by
      refine search_outcome (fun e hreal hresolvable => ?_)
        (fun chain name hchain hlength hresolvable => ?_) visiting_start searching_start
      · refine hreal.not_resolvable ⟨fun a ha => ?_, fun a ha hcycle => ?_⟩
        · exact hresolvable.1 _ (hentry ▸ (reaches_join htree hroot hdirectory hname ha).2)
        · obtain ⟨ha', hreach⟩ := reaches_join htree hroot hdirectory hname ha
          have hcycle' := (transGen_join htree hroot hdirectory ha' hcycle).2
          exact hresolvable.2 _ (hentry ▸ hreach) hcycle'
      · -- A chain that met the limit would have too many files.
        have hnodup :=
          nodup_map_join htree hroot hdirectory hname (hentry.symm ▸ hresolvable) hchain
        have hlt := length_lt_of_nodup hnodup fun f hf => by
          obtain ⟨a, ha, rfl⟩ := List.mem_map.1 hf
          exact size_le_of_readable htree (hchain.readable a ha)
        rw [List.length_map, hlength, List.length_nil] at hlt
        exact Nat.lt_irrefl _ hlt
    rcases hresult : search (sourceBelow h root) importLimit [] entry {} with ⟨s, _ | e⟩ <;>
      rw [hresult] at hsearch
    · obtain ⟨hsearching, -, hlisted⟩ := hsearch
      have hmem := hsearching.mem_iff (hlisted (List.mem_singleton_self entry))
      have hnames : ∀ a ∈ s.order, Path.IsName a := fun a ha =>
        (reaches_join htree hroot hdirectory hname ((hmem a).1 ha)).1
      have hfiles (f : RawText) :
          f ∈ s.order.map (Path.join root) ↔ Reaches (sourceAt h) input f := by
        constructor
        · intro hf
          obtain ⟨a, ha, rfl⟩ := List.mem_map.1 hf
          exact hentry ▸ (reaches_join htree hroot hdirectory hname ((hmem a).1 ha)).2
        · intro hf
          rw [← hentry] at hf
          obtain ⟨a, ha, rfl⟩ := exists_name_of_reaches htree hroot hdirectory hname hf
          exact List.mem_map_of_mem ((hmem a).2 ha)
      refine ⟨⟨fun f hf => ?_, fun f hf => ?_⟩, hfiles,
        sorted_map_join htree hroot hdirectory hsearching.sorted hnames⟩
      · obtain ⟨a, ha, rfl⟩ := List.mem_map.1 ((hfiles f).2 hf)
        exact hsearching.readable a ha
      · obtain ⟨a, ha, rfl⟩ := List.mem_map.1 ((hfiles f).2 hf)
        exact not_transGen_of_sorted htree hroot hdirectory hsearching.sorted hnames ha
    · exact hsearch.2
  · have hnot : ¬ Resolvable h input := fun hresolvable => hreadable (hresolvable.1 input .refl)
    have hsearch : Outcome (sourceBelow h root) entry (fun _ => True) [] [entry] {}
        (search (sourceBelow h root) importLimit [] entry {}) :=
      search_outcome (fun _ _ => trivial) (fun _ _ _ _ => trivial) visiting_start searching_start
    rcases hresult : search (sourceBelow h root) importLimit [] entry {} with ⟨s, _ | e⟩ <;>
      rw [hresult] at hsearch
    · obtain ⟨hsearching, -, hlisted⟩ := hsearch
      have hlists := hsearching.readable entry (hlisted (List.mem_singleton_self entry))
      exact absurd (hentry ▸ hlists : Readable (sourceAt h) input) hreadable
    · exact hnot

end Easel.Import
