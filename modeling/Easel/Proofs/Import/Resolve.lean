import Easel.Proofs.Import.Search

/-!
# What a resolution of imports gives

A resolution asks for no file twice.  It lists the files that the entry reaches, each once and after
the files it imports, exactly if they can all be read and form no cycle.  Otherwise its error tells
of a cycle or of an unreadable file that the entry reaches (`resolve_topological`).
-/

namespace Easel.Import

open Relation

variable {ε : Type}

/-- Reading that keeps a note of the names it was asked for. -/
def noting (read : RawText → Except ε String) (name : RawText) :
    StateM (List RawText) (Except ε String) := fun asked => (read name, asked ++ [name])

section

variable {read : RawText → Except ε String} {entry : RawText} {names : List RawText}

/-! ## Names asked for -/

theorem run_noting (name : RawText) (asked : List RawText) :
    (noting read name).run asked = (read name, asked ++ [name]) := rfl

theorem visitAll_noting
    {visit : RawText → Progress → StateM (List RawText) (Progress × Option (Error ε))}
    {visit' : RawText → Progress → Progress × Option (Error ε)}
    (hvisit : ∀ b s, (visit b s).run s.reads = (visit' b s, (visit' b s).1.reads))
    (names : List RawText) (s : Progress) :
    (visitAll visit names s).run s.reads =
      (searchAll visit' names s, (searchAll visit' names s).1.reads) := by
  induction names generalizing s with
  | nil => rfl
  | cons b rest ih =>
    rw [searchAll_cons, visitAll, StateT.run_bind, hvisit]
    rcases visit' b s with ⟨s', _ | e⟩
    · exact ih s'
    · rfl

/-- The names that a visit asks for are those it lists as read. -/
theorem visit_noting (n : Nat) (chain : List RawText) (name : RawText) (s : Progress) :
    (visit (noting read) n chain name s).run s.reads =
      (search read n chain name s, (search read n chain name s).1.reads) := by
  induction n generalizing chain name s with
  | zero => rfl
  | succ n ih =>
    by_cases horder : name ∈ s.order
    · rw [search_of_mem_order horder, visit_of_mem_order horder]
      rfl
    by_cases hmem : name ∈ chain
    · rw [search_of_mem_chain horder hmem, visit_of_mem_chain horder hmem]
      rfl
    rw [visit_of_fresh horder hmem, StateT.run_bind]
    cases hread : read name with
    | error cause =>
      rw [search_of_error horder hmem hread, run_noting, hread]
      rfl
    | ok source =>
      have hall := visitAll_noting (ih (chain ++ [name])) (importsOf name source)
        { s with reads := s.reads ++ [name] }
      rw [search_of_ok horder hmem hread, run_noting, hread]
      show StateT.run (visitAll _ _ _ >>= _) (s.reads ++ [name]) = _
      rw [StateT.run_bind, hall]
      rcases searchAll (search read n (chain ++ [name])) (importsOf name source)
        { s with reads := s.reads ++ [name] } with ⟨s', _ | e⟩ <;> rfl

/-! ## Resolutions -/

theorem resolve_noting (read : RawText → Except ε String) (limit : Nat) (entry : RawText) :
    (resolve limit (noting read) entry).run [] =
      match search read limit [] (Path.clean entry) {} with
      | (s, some e) => ((.error e, s.reads), s.reads)
      | (s, none) => ((.ok s.order, s.reads), s.reads) := by
  have h : (visit (noting read) limit [] (Path.clean entry) {}).run [] =
      (search read limit [] (Path.clean entry) {},
        (search read limit [] (Path.clean entry) {}).1.reads) :=
    visit_noting limit [] (Path.clean entry) {}
  rw [resolve, StateT.run_bind, h]
  rcases search read limit [] (Path.clean entry) {} with ⟨s, _ | e⟩ <;> rfl

theorem searching_start : Searching read entry [] {} where
  sorted := sorted_nil
  nodup := List.nodup_nil
  readable := by simp
  reached := by simp
  apart := by simp
  reads_nodup := List.nodup_nil
  mem_reads := by simp

theorem visiting_start : Visiting read entry [] entry where
  route := route_singleton
  nodup := List.nodup_nil
  readable := by simp

/-- A search from the entry, with a bound above the number of files. -/
theorem search_start (hnames : ∀ a, Readable read a → a ∈ names) {limit : Nat}
    (hlimit : names.length < limit) (entry : RawText) :
    Outcome read entry (Error.IsReal read entry) [] [entry] {} (search read limit [] entry {}) := by
  refine search_outcome (fun _ => id) (fun chain name hvisiting hlength => ?_) visiting_start
    searching_start
  have hle := hvisiting.length_le hnames
  rw [hlength, List.length_nil] at hle
  omega

/-- The files that a search lists are those reached. -/
theorem Searching.mem_iff {s : Progress} (h : Searching read entry [] s) (hentry : entry ∈ s.order)
    (a : RawText) : a ∈ s.order ↔ Reaches read entry a :=
  ⟨h.reached a, h.sorted.mem_of_reaches hentry⟩

theorem Searching.resolvable {s : Progress} (h : Searching read entry [] s)
    (hentry : entry ∈ s.order) :
    (∀ a, Reaches read entry a → Readable read a) ∧ Acyclic read entry :=
  ⟨fun a ha => h.readable a ((h.mem_iff hentry a).2 ha),
    fun a ha => h.sorted.not_transGen_self h.nodup ((h.mem_iff hentry a).2 ha)⟩

/-- The entry reaches every listed file, so none can stand after it. -/
theorem Searching.getLast? {s : Progress} (h : Searching read entry [] s)
    (hentry : entry ∈ s.order) : s.order.getLast? = some entry := by
  obtain ⟨before, after, horder⟩ := List.append_of_mem hentry
  rcases List.eq_nil_or_concat after with rfl | ⟨rest, last, rfl⟩
  · rw [horder]
    simp
  · have hnodup := h.nodup
    have hlast : last ∈ s.order := by simp [horder]
    rw [horder, List.nodup_append, List.nodup_cons] at hnodup
    obtain ⟨-, ⟨hne, -⟩, hapart⟩ := hnodup
    rcases reflTransGen_iff_eq_or_transGen.1 (h.reached last hlast) with rfl | hreach
    · exact absurd (by simp) hne
    · exact absurd rfl (hapart last (h.sorted.mem_before horder hreach) last (by simp))

theorem resolve_eq_resolve (hnames : ∀ a, Readable read a → a ∈ names) {limit limit' : Nat}
    (hlimit : names.length < limit) (hlimit' : names.length < limit') (entry : RawText) :
    (resolve limit (noting read) entry).run [] = (resolve limit' (noting read) entry).run [] := by
  rw [resolve_noting, resolve_noting, search_eq_search hnames (by simpa using hlimit)
    (by simpa using hlimit') visiting_start]

/-- For files of which finitely many can be read, a resolution gives the same answer with every
bound above their number, and it asks for no name twice. It succeeds exactly if all files that the
entry reaches can be read and none reaches itself; then it lists these files, each once and after
the files it imports, with the entry at the end. Otherwise its error is real. -/
theorem resolve_topological (read : RawText → Except ε String) (names : List RawText) (limit : Nat)
    (entry : RawText) (hnames : ∀ a, Readable read a → a ∈ names) (hlimit : names.length < limit) :
    ∃ result asked, (resolve limit (noting read) entry).run [] = ((result, asked), asked) ∧
      (∀ limit', names.length < limit' →
        (resolve limit' (noting read) entry).run [] = ((result, asked), asked)) ∧
      asked.Nodup ∧
      ((∃ order, result = .ok order) ↔
        (∀ a, Reaches read (Path.clean entry) a → Readable read a) ∧
          Acyclic read (Path.clean entry)) ∧
      (∀ order, result = .ok order → order.Nodup ∧
        (∀ a, a ∈ order ↔ Reaches read (Path.clean entry) a) ∧ Sorted read order ∧
        order.getLast? = some (Path.clean entry)) ∧
      ∀ e, result = .error e → e.IsReal read (Path.clean entry) := by
  have hsearch := search_start hnames hlimit (Path.clean entry)
  have hrun := resolve_noting read limit entry
  have hagain : ∀ limit', names.length < limit' →
      (resolve limit' (noting read) entry).run [] = (resolve limit (noting read) entry).run [] :=
    fun _ hlimit' => resolve_eq_resolve hnames hlimit' hlimit entry
  rcases hs : search read limit [] (Path.clean entry) {} with ⟨s, _ | e⟩ <;>
    simp only [hs] at hsearch hrun
  · obtain ⟨hsearching, -, hlisted⟩ := hsearch
    have hentry : Path.clean entry ∈ s.order := hlisted (List.mem_singleton_self _)
    refine ⟨.ok s.order, s.reads, hrun, fun limit' hlimit' => (hagain limit' hlimit').trans hrun,
      hsearching.reads_nodup, ⟨fun _ => hsearching.resolvable hentry, fun _ => ⟨_, rfl⟩⟩, ?_, ?_⟩
    · rintro _ ⟨⟩
      exact ⟨hsearching.nodup, hsearching.mem_iff hentry, hsearching.sorted,
        hsearching.getLast? hentry⟩
    · rintro _ ⟨⟩
  · obtain ⟨hreads, hreal⟩ := hsearch
    refine ⟨.error e, s.reads, hrun, fun limit' hlimit' => (hagain limit' hlimit').trans hrun,
      hreads, ⟨?_, fun h => absurd h hreal.not_resolvable⟩, ?_, ?_⟩
    · rintro ⟨order, ⟨⟩⟩
    · rintro _ ⟨⟩
    · rintro _ ⟨⟩
      exact hreal

end

/-! ## Files in a list -/

/-- Reading from a list of files. -/
def ofFiles (files : List (RawText × String)) (name : RawText) : Except Unit String :=
  match files.lookup name with
  | some source => .ok source
  | none => .error ()

theorem mem_of_readable_ofFiles {files : List (RawText × String)} {a : RawText}
    (h : Readable (ofFiles files) a) : a ∈ files.map Prod.fst := by
  obtain ⟨source, hsource⟩ := h
  rw [ofFiles] at hsource
  split at hsource
  · rename_i hlookup
    obtain ⟨before, after, rfl, -⟩ := List.lookup_eq_some_iff.1 hlookup
    simp
  · cases hsource

/-- Two files that import a third, which one of them spells in another way. -/
theorem resolve_topological_diamond :
    let files : List (RawText × String) :=
      [("main", "import \"a\"\nimport \"lib/b\""), ("a", "import \"c\""),
        ("lib/b", "import \"../x/../c\""), ("c", "")]
    (∀ a, Readable (ofFiles files) a → a ∈ files.map Prod.fst) ∧ (files.map Prod.fst).length < 5 ∧
      ∃ asked, (resolve 5 (noting (ofFiles files)) "./main").run [] =
          ((.ok ["c", "a", "lib/b", "main"], asked), asked) ∧ asked.Nodup ∧
        Acyclic (ofFiles files) "main" := by
  intro files
  have hnames : ∀ a, Readable (ofFiles files) a → a ∈ files.map Prod.fst :=
    fun a => mem_of_readable_ofFiles
  have hrun : Id.run ((resolve 5 (noting (ofFiles files)) "./main").run []) =
      (((.ok ["c", "a", "lib/b", "main"], ["main", "a", "c", "lib/b"]),
        ["main", "a", "c", "lib/b"]) :
          (Except (Error Unit) (List RawText) × List RawText) × List RawText) := by
    decide +kernel
  obtain ⟨result, asked, hresult, -, hasked, hiff, -, -⟩ :=
    resolve_topological (ofFiles files) (files.map Prod.fst) 5 "./main" hnames (by decide)
  cases hresult.symm.trans hrun
  have hclean : Path.clean "./main" = "main" := by decide +kernel
  exact ⟨hnames, by decide, _, hrun, hasked, hclean ▸ (hiff.1 ⟨_, rfl⟩).2⟩

/-- It is not so that every error names a file that imports the unreadable one or tells of a cycle:
an entry that cannot be read is named alone, even where another file imports it. -/
theorem exists_error_without_importer :
    ¬ ∀ (files : List (RawText × String)) (entry : RawText) (e : Error Unit),
      ((resolve (files.length + 1) (noting (ofFiles files)) entry).run []).1.1 = .error e →
        (∃ importer name cause, e = .unreadable (some importer) name cause ∧
          Imports (ofFiles files) importer name ∧ ¬ Readable (ofFiles files) name) ∨
        ∃ chain name, e = .cycle chain name ∧
          Route (ofFiles files) (Path.clean entry) (chain ++ [name]) ∧ name ∈ chain := by
  intro h
  have hresult : ((resolve 2 (noting (ofFiles [("a", "import \"b\"")])) "b").run []).1.1 =
      .error (.unreadable none "b" ()) := by
    decide +kernel
  rcases h [("a", "import \"b\"")] "b" _ hresult with ⟨importer, name, cause, heq, -⟩ |
    ⟨chain, name, heq, -⟩ <;> cases heq

end Easel.Import
