import Easel.Proofs.Import.Graph
import Mathlib.Data.List.Perm.Subperm

/-!
# The search for imported files

`search` is the visit of a file when reading has no effect.  While the files of a chain are being
visited, the files listed so far are sorted, reached from the entry and apart from the chain, and
the files read are those listed and those of the chain (`Searching`).  A visit keeps this and lists
its file, or it ends with an error, which is real unless the chain has become as long as the bound
(`search_outcome`).
-/

namespace Easel.Import

open Relation

variable {ε : Type}

/-- A visit with files that are at hand. -/
def search (read : RawText → Except ε String) (n : Nat) (chain : List RawText) (name : RawText)
    (s : Progress) : Progress × Option (Error ε) :=
  Id.run (visit (fun a => pure (read a)) n chain name s)

/-- Visits in turn with files that are at hand. -/
def searchAll (visit : RawText → Progress → Progress × Option (Error ε)) (names : List RawText)
    (s : Progress) : Progress × Option (Error ε) :=
  Id.run (visitAll (fun a s => pure (visit a s)) names s)

/-- How a search stands while the files of the chain are being visited. -/
structure Searching (read : RawText → Except ε String) (entry : RawText) (chain : List RawText)
    (s : Progress) : Prop where
  sorted : Sorted read s.order
  nodup : s.order.Nodup
  readable : ∀ a ∈ s.order, Readable read a
  reached : ∀ a ∈ s.order, Reaches read entry a
  apart : ∀ a ∈ s.order, a ∉ chain
  reads_nodup : s.reads.Nodup
  mem_reads : ∀ a, a ∈ s.reads ↔ a ∈ s.order ∨ a ∈ chain

/-- What comes of visiting names: they are all listed, or there is an error of some kind. No file is
read twice in either case. -/
def Outcome (read : RawText → Except ε String) (entry : RawText) (kind : Error ε → Prop)
    (chain names : List RawText) (s : Progress) : Progress × Option (Error ε) → Prop
  | (s', none) => Searching read entry chain s' ∧ s.order ⊆ s'.order ∧ names ⊆ s'.order
  | (s', some e) => s'.reads.Nodup ∧ kind e

/-- The chain is one that a search can be in: a path of readable files from the entry. -/
structure Visiting (read : RawText → Except ε String) (entry : RawText) (chain : List RawText)
    (name : RawText) : Prop where
  route : Route read entry (chain ++ [name])
  nodup : chain.Nodup
  readable : ∀ a ∈ chain, Readable read a

section

variable {read : RawText → Except ε String} {entry name : RawText} {n : Nat}
  {chain names : List RawText} {s : Progress} {kind : Error ε → Prop}

/-! ## The cases of a visit -/

section Visit

variable {m : Type → Type} [Monad m] {reader : RawText → m (Except ε String)}

theorem visit_of_mem_order (h : name ∈ s.order) :
    visit reader (n + 1) chain name s = pure (s, none) := by
  simp [visit, h]

theorem visit_of_mem_chain (horder : name ∉ s.order) (hchain : name ∈ chain) :
    visit reader (n + 1) chain name s = pure (s, some (.cycle chain name)) := by
  simp [visit, horder, hchain]

/-- A file that is neither listed nor being visited is read; then the files it imports are visited,
and it is listed after them. -/
theorem visit_of_fresh (horder : name ∉ s.order) (hchain : name ∉ chain) :
    visit reader (n + 1) chain name s = (do
      match ← reader name with
      | .error cause =>
        pure ({ s with reads := s.reads ++ [name] }, some (.unreadable chain.getLast? name cause))
      | .ok source =>
        match ← visitAll (visit reader n (chain ++ [name])) (importsOf name source)
            { s with reads := s.reads ++ [name] } with
        | (s', some e) => pure (s', some e)
        | (s', none) => pure ({ s' with order := s'.order ++ [name] }, none)) := by
  have horder' : ¬ s.order.contains name = true := by simpa using horder
  have hchain' : ¬ chain.contains name = true := by simpa using hchain
  exact (if_neg horder').trans (if_neg hchain')

end Visit

theorem search_of_mem_order (h : name ∈ s.order) :
    search read (n + 1) chain name s = (s, none) := by
  rw [search, visit_of_mem_order h]
  rfl

theorem search_of_mem_chain (horder : name ∉ s.order) (hchain : name ∈ chain) :
    search read (n + 1) chain name s = (s, some (.cycle chain name)) := by
  rw [search, visit_of_mem_chain horder hchain]
  rfl

theorem search_of_error (horder : name ∉ s.order) (hchain : name ∉ chain) {cause : ε}
    (hread : read name = .error cause) :
    search read (n + 1) chain name s =
      ({ s with reads := s.reads ++ [name] }, some (.unreadable chain.getLast? name cause)) := by
  rw [search, visit_of_fresh horder hchain, hread]
  rfl

theorem search_of_ok (horder : name ∉ s.order) (hchain : name ∉ chain) {source : String}
    (hread : read name = .ok source) :
    search read (n + 1) chain name s =
      match searchAll (search read n (chain ++ [name])) (importsOf name source)
        { s with reads := s.reads ++ [name] } with
      | (s', none) => ({ s' with order := s'.order ++ [name] }, none)
      | (s', some e) => (s', some e) := by
  rw [search, visit_of_fresh horder hchain, hread, pure_bind, Id.run_bind]
  have hall : Id.run (visitAll (visit (fun a => pure (read a)) n (chain ++ [name]))
        (importsOf name source) { s with reads := s.reads ++ [name] }) =
      searchAll (search read n (chain ++ [name])) (importsOf name source)
        { s with reads := s.reads ++ [name] } := rfl
  rw [hall]
  rcases searchAll (search read n (chain ++ [name])) (importsOf name source)
    { s with reads := s.reads ++ [name] } with ⟨s', _ | e⟩ <;> rfl

theorem searchAll_cons (visit : RawText → Progress → Progress × Option (Error ε)) :
    searchAll visit (name :: names) s =
      match visit name s with
      | (s', none) => searchAll visit names s'
      | (s', some e) => (s', some e) := by
  simp only [searchAll, visitAll, pure_bind]
  rcases visit name s with ⟨s', _ | e⟩ <;> rfl

theorem searchAll_congr {visit visit' : RawText → Progress → Progress × Option (Error ε)}
    (h : ∀ b ∈ names, ∀ s, visit b s = visit' b s) :
    searchAll visit names s = searchAll visit' names s := by
  induction names generalizing s with
  | nil => rfl
  | cons b rest ih =>
    rw [searchAll_cons, searchAll_cons, h b (List.mem_cons_self ..)]
    rcases visit' b s with ⟨s', _ | e⟩
    · exact ih fun c hc => h c (List.mem_cons_of_mem _ hc)
    · rfl

/-! ## One visit -/

theorem Visiting.imported (h : Visiting read entry chain name) (hname : name ∉ chain)
    {source : String} (hread : read name = .ok source) {b : RawText}
    (hb : b ∈ importsOf name source) : Visiting read entry (chain ++ [name]) b where
  route := h.route.concat ⟨source, hread, hb⟩
  nodup := List.nodup_append.2 ⟨h.nodup, List.nodup_singleton _, by
    rintro a ha c hc rfl
    exact hname (List.mem_singleton.1 hc ▸ ha)⟩
  readable a ha := by
    rcases List.mem_append.1 ha with ha | ha
    · exact h.readable a ha
    · exact List.mem_singleton.1 ha ▸ ⟨source, hread⟩

/-- The chain of a search is no longer than the files that can be read. -/
theorem Visiting.length_le (h : Visiting read entry chain name)
    (hnames : ∀ a, Readable read a → a ∈ names) : chain.length ≤ names.length :=
  (List.subperm_of_subset h.nodup fun a ha => hnames a (h.readable a ha)).length_le

theorem Searching.not_mem_reads (h : Searching read entry chain s) (horder : name ∉ s.order)
    (hchain : name ∉ chain) : name ∉ s.reads := by
  rw [h.mem_reads]
  exact not_or.2 ⟨horder, hchain⟩

theorem Searching.reads_concat (h : Searching read entry chain s) (horder : name ∉ s.order)
    (hchain : name ∉ chain) : (s.reads ++ [name]).Nodup := by
  rw [← List.concat_eq_append]
  exact h.reads_nodup.concat (h.not_mem_reads horder hchain)

/-- Reading a file puts it on the chain. -/
theorem Searching.enter (h : Searching read entry chain s) (horder : name ∉ s.order)
    (hchain : name ∉ chain) :
    Searching read entry (chain ++ [name]) { s with reads := s.reads ++ [name] } where
  sorted := h.sorted
  nodup := h.nodup
  readable := h.readable
  reached := h.reached
  apart a ha hmem := by
    rcases List.mem_append.1 hmem with hmem | hmem
    · exact h.apart a ha hmem
    · exact horder (List.mem_singleton.1 hmem ▸ ha)
  reads_nodup := h.reads_concat horder hchain
  mem_reads a := by rw [List.mem_append, List.mem_append, h.mem_reads, or_assoc]

/-- Listing the last file of the chain takes it off. -/
theorem Searching.leave (h : Searching read entry (chain ++ [name]) s) (hname : name ∉ chain)
    (hreadable : Readable read name) (hreached : Reaches read entry name)
    (himports : ∀ b, Imports read name b → b ∈ s.order) :
    Searching read entry chain { s with order := s.order ++ [name] } where
  sorted := h.sorted.concat himports
  nodup := by
    rw [← List.concat_eq_append]
    exact h.nodup.concat fun hmem => h.apart name hmem (by simp)
  readable a ha := by
    rcases List.mem_append.1 ha with ha | ha
    · exact h.readable a ha
    · exact List.mem_singleton.1 ha ▸ hreadable
  reached a ha := by
    rcases List.mem_append.1 ha with ha | ha
    · exact h.reached a ha
    · exact List.mem_singleton.1 ha ▸ hreached
  apart a ha hmem := by
    rcases List.mem_append.1 ha with ha | ha
    · exact h.apart a ha (List.mem_append_left _ hmem)
    · exact hname (List.mem_singleton.1 ha ▸ hmem)
  reads_nodup := h.reads_nodup
  mem_reads a := by
    rw [h.mem_reads, List.mem_append, List.mem_append, or_assoc, or_comm (a := a ∈ chain)]

/-! ## Whole searches -/

/-- Visits in turn, from what comes of each. -/
theorem searchAll_outcome {visit : RawText → Progress → Progress × Option (Error ε)}
    (hvisit : ∀ b ∈ names, ∀ s, Searching read entry chain s →
      Outcome read entry kind chain [b] s (visit b s))
    (hs : Searching read entry chain s) :
    Outcome read entry kind chain names s (searchAll visit names s) := by
  induction names generalizing s with
  | nil => exact ⟨hs, List.Subset.refl _, List.nil_subset _⟩
  | cons b rest ih =>
    have hb := hvisit b (List.mem_cons_self ..) s hs
    rw [searchAll_cons]
    rcases hresult : visit b s with ⟨s', _ | e⟩ <;> rw [hresult] at hb
    · obtain ⟨hs', hgrow, hlisted⟩ := hb
      have hrest := ih (fun c hc => hvisit c (List.mem_cons_of_mem _ hc)) hs'
      rcases hall : searchAll visit rest s' with ⟨s'', _ | e⟩ <;> simp only [hall] at hrest ⊢
      · obtain ⟨hs'', hgrow', hlisted'⟩ := hrest
        refine ⟨hs'', List.Subset.trans hgrow hgrow', List.cons_subset.2 ⟨?_, hlisted'⟩⟩
        exact hgrow' (hlisted (List.mem_singleton_self b))
      · exact hrest
    · exact hb

/-- A visit lists its file or ends with an error. The error is real, or the chain has met the bound:
it has grown by `n` files. -/
theorem search_outcome (hreal : ∀ e, e.IsReal read entry → kind e)
    (hbound : ∀ chain' name', Visiting read entry chain' name' →
      chain'.length = n + chain.length → kind (.cycle chain' name'))
    (hchain : Visiting read entry chain name) (hs : Searching read entry chain s) :
    Outcome read entry kind chain [name] s (search read n chain name s) := by
  induction n generalizing chain name s with
  | zero => exact ⟨hs.reads_nodup, hbound chain name hchain (Nat.zero_add _).symm⟩
  | succ n ih =>
    by_cases horder : name ∈ s.order
    · rw [search_of_mem_order horder]
      exact ⟨hs, List.Subset.refl _, by simpa using horder⟩
    by_cases hmem : name ∈ chain
    · rw [search_of_mem_chain horder hmem]
      exact ⟨hs.reads_nodup, hreal _ ⟨hchain.route, hmem⟩⟩
    cases hread : read name with
    | error cause =>
      rw [search_of_error horder hmem hread]
      refine ⟨hs.reads_concat horder hmem, hreal _ ?_⟩
      have hlast := hchain.route.last
      cases himporter : chain.getLast? <;> rw [himporter] at hlast
      · exact ⟨hlast, hread⟩
      · exact ⟨hlast.1, hlast.2, hread⟩
    | ok source =>
      rw [search_of_ok horder hmem hread]
      have hall : Outcome read entry kind (chain ++ [name]) (importsOf name source)
          { s with reads := s.reads ++ [name] }
          (searchAll (search read n (chain ++ [name])) (importsOf name source)
            { s with reads := s.reads ++ [name] }) := by
        refine searchAll_outcome (fun b hb s hs => ?_) (hs.enter horder hmem)
        refine ih (fun chain' name' hvisiting hlength => hbound chain' name' hvisiting ?_)
          (hchain.imported hmem hread hb) hs
        rw [hlength, List.length_append, List.length_singleton]
        omega
      rcases hresult : searchAll (search read n (chain ++ [name])) (importsOf name source)
        { s with reads := s.reads ++ [name] } with ⟨s', _ | e⟩ <;> rw [hresult] at hall
      · obtain ⟨hs', hgrow, hlisted⟩ := hall
        refine ⟨hs'.leave hmem ⟨source, hread⟩ (hchain.route.reaches (by simp)) ?_,
          List.Subset.trans hgrow (List.subset_append_left _ _), by simp⟩
        rintro b ⟨source', hsource, hb⟩
        rw [hread] at hsource
        cases hsource
        exact hlisted hb
      · exact hall

/-- The bound does not show in the answer, as long as it is above the number of files. -/
theorem search_eq_search {n' : Nat} (hnames : ∀ a, Readable read a → a ∈ names)
    (hn : names.length < n + chain.length) (hn' : names.length < n' + chain.length)
    (hchain : Visiting read entry chain name) :
    search read n chain name s = search read n' chain name s := by
  induction n generalizing n' chain name s with
  | zero =>
    have := hchain.length_le hnames
    omega
  | succ n ih =>
    cases n' with
    | zero =>
      have := hchain.length_le hnames
      omega
    | succ n' =>
      by_cases horder : name ∈ s.order
      · rw [search_of_mem_order horder, search_of_mem_order horder]
      by_cases hmem : name ∈ chain
      · rw [search_of_mem_chain horder hmem, search_of_mem_chain horder hmem]
      cases hread : read name with
      | error cause => rw [search_of_error horder hmem hread, search_of_error horder hmem hread]
      | ok source =>
        rw [search_of_ok horder hmem hread, search_of_ok horder hmem hread]
        have hlength : (chain ++ [name]).length = chain.length + 1 := List.length_append
        have hall : ∀ s, searchAll (search read n (chain ++ [name])) (importsOf name source) s =
            searchAll (search read n' (chain ++ [name])) (importsOf name source) s := by
          refine fun s => searchAll_congr fun b hb s => ?_
          exact ih (by omega) (by omega) (hchain.imported hmem hread hb)
        rw [hall]

end

end Easel.Import
