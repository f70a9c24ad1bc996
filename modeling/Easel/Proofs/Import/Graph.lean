import Easel.Workspace.Import
import Mathlib.Data.List.Chain
import Mathlib.Data.List.Nodup
import Mathlib.Logic.Relation

/-!
# The graph of imports

Files are the nodes of a graph, with an edge from each file that can be read to the files it imports
(`Imports`).  A list of files is sorted if every file stands after the files it imports; no file of
such a list reaches itself.  An error of a resolution is real (`Error.IsReal`) if the graph has what
it tells of.
-/

namespace Easel.Import

open Relation

variable {ε : Type}

/-- The file `a` can be read and imports `b` at its top level. -/
def Imports (read : RawText → Except ε String) (a b : RawText) : Prop :=
  ∃ source, read a = .ok source ∧ b ∈ importsOf a source

/-- The file can be read. -/
def Readable (read : RawText → Except ε String) (a : RawText) : Prop :=
  ∃ source, read a = .ok source

/-- The file `b` is `a` or is reached from it over imports. -/
abbrev Reaches (read : RawText → Except ε String) : RawText → RawText → Prop :=
  ReflTransGen (Imports read)

/-- No file that is reached from the entry reaches itself over one import or more. -/
def Acyclic (read : RawText → Except ε String) (entry : RawText) : Prop :=
  ∀ a, Reaches read entry a → ¬ TransGen (Imports read) a a

/-- Every file of the list stands after the files it imports. -/
def Sorted (read : RawText → Except ε String) (order : List RawText) : Prop :=
  ∀ before a after, order = before ++ a :: after → ∀ b, Imports read a b → b ∈ before

/-- The list is a path in the graph that starts at the entry. -/
structure Route (read : RawText → Except ε String) (entry : RawText) (path : List RawText) :
    Prop where
  head : path.head? = some entry
  chain : path.IsChain (Imports read)

/-- The graph has what the error tells of: a path from the entry that ends by repeating one of its
files, or a file that cannot be read and is the entry or imported by a file reached from it. -/
def Error.IsReal (read : RawText → Except ε String) (entry : RawText) : Error ε → Prop
  | .cycle chain name => Route read entry (chain ++ [name]) ∧ name ∈ chain
  | .unreadable (some importer) name cause =>
    Reaches read entry importer ∧ Imports read importer name ∧ read name = .error cause
  | .unreadable none name cause => name = entry ∧ read name = .error cause

section

variable {read : RawText → Except ε String} {entry a b name : RawText}
  {order before after chain path : List RawText}

/-! ## Sorted lists -/

theorem sorted_nil : Sorted read [] := by
  intro before a after h
  simp at h

theorem Sorted.concat (h : Sorted read order) (hname : ∀ b, Imports read name b → b ∈ order) :
    Sorted read (order ++ [name]) := by
  intro before a after hsplit b hb
  rcases List.eq_nil_or_concat after with rfl | ⟨after, last, rfl⟩
  · obtain ⟨rfl, heq⟩ := List.append_inj' hsplit rfl
    rw [List.singleton_inj] at heq
    exact hname b (heq ▸ hb)
  · rw [List.concat_eq_append, ← List.cons_append, ← List.append_assoc] at hsplit
    exact h before a after (List.append_inj' hsplit rfl).1 b hb

theorem Sorted.mem_of_imports (h : Sorted read order) (ha : a ∈ order) (hab : Imports read a b) :
    b ∈ order := by
  obtain ⟨before, after, rfl⟩ := List.append_of_mem ha
  exact List.mem_append_left _ (h before a after rfl b hab)

theorem Sorted.mem_of_reaches (h : Sorted read order) (ha : a ∈ order) (hab : Reaches read a b) :
    b ∈ order := by
  induction hab with
  | refl => exact ha
  | tail _ hedge ih => exact h.mem_of_imports ih hedge

/-- What a file reaches over one import or more stands in front of it. -/
theorem Sorted.mem_before (h : Sorted read order) (hsplit : order = before ++ a :: after)
    (hab : TransGen (Imports read) a b) : b ∈ before := by
  induction hab with
  | single hedge => exact h before a after hsplit _ hedge
  | tail _ hedge ih =>
    obtain ⟨front, back, rfl⟩ := List.append_of_mem ih
    refine List.mem_append_left _ (h front _ (back ++ a :: after) ?_ _ hedge)
    rw [hsplit, List.append_assoc, List.cons_append]

theorem Sorted.not_transGen_self (h : Sorted read order) (hnodup : order.Nodup) (ha : a ∈ order) :
    ¬ TransGen (Imports read) a a := by
  intro hcycle
  obtain ⟨before, after, rfl⟩ := List.append_of_mem ha
  have hbefore : a ∈ before := h.mem_before rfl hcycle
  exact (List.nodup_append.1 hnodup).2.2 a hbefore a (List.mem_cons_self ..) rfl

/-! ## Paths from the entry -/

theorem route_singleton : Route read entry [entry] := ⟨rfl, .singleton _⟩

theorem Route.concat (h : Route read entry (chain ++ [name])) (hb : Imports read name b) :
    Route read entry (chain ++ [name] ++ [b]) := by
  refine ⟨?_, ?_⟩
  · rw [List.head?_append_of_ne_nil _ (by simp)]
    exact h.head
  · refine List.isChain_append.2 ⟨h.chain, .singleton _, ?_⟩
    simpa using hb

theorem Route.reaches (h : Route read entry path) (ha : a ∈ path) : Reaches read entry a := by
  refine h.chain.induction (Reaches read entry) path (fun _ _ hedge hreach => hreach.tail hedge) ?_
    a ha
  intro hne
  rw [List.head_of_head?_eq_some h.head]

/-- The file before the last one of a path imports it; a path of one file is the entry. -/
theorem Route.last (h : Route read entry (chain ++ [name])) :
    match chain.getLast? with
    | none => name = entry
    | some importer => Reaches read entry importer ∧ Imports read importer name := by
  rcases List.eq_nil_or_concat chain with rfl | ⟨front, importer, rfl⟩
  · simpa using h.head
  · rw [List.concat_eq_append] at h ⊢
    have hedge := (List.isChain_append.1 h.chain).2.2
    simp only [List.getLast?_append_cons, List.getLast?_singleton]
    refine ⟨h.reaches (by simp), ?_⟩
    simpa using hedge

/-- A path that repeats a file at its end has gone round a cycle. -/
theorem Route.transGen_self (h : Route read entry (chain ++ [name])) (hname : name ∈ chain) :
    TransGen (Imports read) name name := by
  obtain ⟨front, back, rfl⟩ := List.append_of_mem hname
  have hchain := h.chain
  rw [List.append_assoc, List.cons_append] at hchain
  have hcycle : (name :: (back ++ [name])).IsChain (TransGen (Imports read)) :=
    hchain.right_of_append.imp fun _ _ => .single
  exact hcycle.rel_cons (by simp)

/-- With a real error, not all that is reached is readable and free of cycles. -/
theorem Error.IsReal.not_resolvable {e : Error ε} (h : e.IsReal read entry) :
    ¬ ((∀ a, Reaches read entry a → Readable read a) ∧ Acyclic read entry) := by
  rintro ⟨hreadable, hacyclic⟩
  match e, h with
  | .cycle chain name, ⟨hroute, hname⟩ =>
    exact hacyclic name (hroute.reaches (by simp)) (hroute.transGen_self hname)
  | .unreadable (some importer) name cause, ⟨hreach, hedge, herror⟩ =>
    obtain ⟨source, hsource⟩ := hreadable name (hreach.tail hedge)
    rw [herror] at hsource
    cases hsource
  | .unreadable none name cause, ⟨heq, herror⟩ =>
    obtain ⟨source, hsource⟩ := hreadable name (heq ▸ .refl)
    rw [herror] at hsource
    cases hsource

end

end Easel.Import
