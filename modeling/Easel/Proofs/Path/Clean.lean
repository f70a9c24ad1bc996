import Easel.Proofs.Lookup
import Easel.Workspace.Basic

/-!
# Clean paths

Cleaning a path pushes its segments on a stack.  Every stack it can reach is settled (`Settled`):
pushing its segments again gives the same stack, so cleaning a clean path changes nothing
(`cleanSegments_clean`).  The segments of a valid name are plain, and a valid name below a root has
the segments of the root and then its own (`cleanSegments_join`).
-/

namespace Easel.Path

/-- A segment that a clean path may have. -/
structure IsSegment (s : RawText) : Prop where
  ne_empty : s ≠ ""
  ne_dot : s ≠ "."
  no_slash : slash ∉ s.glyphs

/-- A segment that means neither this directory nor the one above. -/
def IsPlain (s : RawText) : Prop := IsSegment s ∧ s ≠ ".."

/-- A stack of segments, from the last to the first, that cleaning leaves as it is: `..` stands only
at the bottom, and only if the path does not start at the root. -/
def Settled (rooted : Bool) : List RawText → Prop
  | [] => True
  | s :: below =>
    IsSegment s ∧ (s = ".." → rooted = false ∧ ∀ t ∈ below, t = "..") ∧ Settled rooted below

variable {rooted : Bool} {s name root p : RawText} {stack segments : List RawText}

/-! ## Splitting -/

theorem no_slash_of_mem_split (h : s ∈ split p) : slash ∉ s.glyphs := by
  obtain ⟨part, hpart, rfl⟩ := List.mem_map.1 h
  exact not_mem_of_mem_splitOn slash p.glyphs part hpart

theorem split_injective : Function.Injective split := by
  intro p p' h
  have hglyphs : p.glyphs.splitOn slash = p'.glyphs.splitOn slash := by
    refine List.map_injective_iff.2 (fun a b hab => ?_) h
    exact congrArg RawText.glyphs hab
  have hp := congrArg (List.intercalate [slash]) hglyphs
  rw [List.intercalate_splitOn, List.intercalate_splitOn] at hp
  exact congrArg RawText.mk hp

theorem split_slash (p q : RawText) : split (p ++ "/" ++ q) = split p ++ split q := by
  show ((p.glyphs ++ [slash] ++ q.glyphs).splitOn slash).map RawText.mk = _
  rw [List.append_assoc, List.singleton_append, List.splitOn_append_cons_self, List.map_append]
  rfl

theorem split_intercalate (hsegments : ∀ s ∈ segments, slash ∉ s.glyphs) (hne : segments ≠ []) :
    split ⟨List.intercalate [slash] (segments.map RawText.glyphs)⟩ = segments := by
  rw [split, List.splitOn_intercalate]
  · rw [List.map_map]
    exact List.map_id _
  · intro part hpart
    obtain ⟨s, hs, rfl⟩ := List.mem_map.1 hpart
    exact hsegments s hs
  · simpa using hne

/-! ## Pushing segments -/

theorem push_empty : push rooted stack "" = stack := if_pos (.inl rfl)

theorem push_plain (h : IsPlain s) : push rooted stack s = s :: stack := by
  rw [push.eq_def, if_neg (not_or.2 ⟨h.1.ne_empty, h.1.ne_dot⟩), if_neg h.2]

theorem foldl_push_plain (h : ∀ s ∈ segments, IsPlain s) :
    segments.foldl (push rooted) stack = segments.reverse ++ stack := by
  induction segments generalizing stack with
  | nil => rfl
  | cons s rest ih =>
    rw [List.foldl_cons, push_plain (h s (List.mem_cons_self ..)),
      ih fun t ht => h t (List.mem_cons_of_mem _ ht), List.reverse_cons, List.append_assoc]
    rfl

theorem Settled.isSegment (h : Settled rooted stack) : ∀ s ∈ stack, IsSegment s := by
  induction stack with
  | nil => simp
  | cons s below ih =>
    intro t ht
    rcases List.mem_cons.1 ht with rfl | ht
    · exact h.1
    · exact ih h.2.2 t ht

theorem isSegment_up : IsSegment ".." := ⟨by decide, by decide, by decide⟩

theorem settled_push (h : Settled rooted stack) (hs : slash ∉ s.glyphs) :
    Settled rooted (push rooted stack s) := by
  rw [push.eq_def]
  by_cases hblank : s = "" ∨ s = "."
  · rw [if_pos hblank]
    exact h
  rw [if_neg hblank]
  rw [not_or] at hblank
  by_cases hup : s = ".."
  · rw [if_pos hup]
    subst hup
    cases stack with
    | nil =>
      cases rooted with
      | false => exact ⟨isSegment_up, fun _ => ⟨rfl, by simp⟩, trivial⟩
      | true => exact trivial
    | cons last below =>
      by_cases hlast : last = ".."
      · obtain ⟨hrooted, hbelow⟩ := h.2.1 hlast
        simp only [hlast, if_true]
        rw [hlast] at h
        refine ⟨isSegment_up, fun _ => ⟨hrooted, ?_⟩, h⟩
        simpa using hbelow
      · simp only [hlast, if_false]
        exact h.2.2
  · rw [if_neg hup]
    exact ⟨⟨hblank.1, hblank.2, hs⟩, fun h => absurd h hup, h⟩

theorem settled_foldl (h : Settled rooted stack) (hsegments : ∀ s ∈ segments, slash ∉ s.glyphs) :
    Settled rooted (segments.foldl (push rooted) stack) := by
  induction segments generalizing stack with
  | nil => exact h
  | cons s rest ih =>
    exact ih (settled_push h (hsegments s (List.mem_cons_self ..)))
      fun t ht => hsegments t (List.mem_cons_of_mem _ ht)

/-- Pushing the segments of a settled stack gives the stack. -/
theorem Settled.foldl_reverse (h : Settled rooted stack) :
    stack.reverse.foldl (push rooted) [] = stack := by
  induction stack with
  | nil => rfl
  | cons s below ih =>
    obtain ⟨hs, hup, hbelow⟩ := h
    rw [List.reverse_cons, List.foldl_append, ih hbelow, List.foldl_cons, List.foldl_nil]
    by_cases heq : s = ".."
    · obtain ⟨rfl, hall⟩ := hup heq
      subst heq
      cases below with
      | nil => rfl
      | cons last below =>
        rw [hall last (List.mem_cons_self ..)]
        rfl
    · exact push_plain ⟨hs, heq⟩

/-! ## Clean paths -/

theorem exists_settled (p : RawText) :
    ∃ stack, Settled (isAbsolute p) stack ∧ cleanSegments p = stack.reverse :=
  have hstart : Settled (isAbsolute p) [] := trivial
  ⟨_, settled_foldl hstart fun _ => no_slash_of_mem_split, rfl⟩

theorem isSegment_of_mem_cleanSegments (h : s ∈ cleanSegments p) : IsSegment s := by
  obtain ⟨stack, hstack, heq⟩ := exists_settled p
  rw [heq, List.mem_reverse] at h
  exact hstack.isSegment s h

theorem isAbsolute_ofSegments (h : ∀ s ∈ segments, IsSegment s) :
    isAbsolute (ofSegments rooted segments) = rooted := by
  cases rooted with
  | true => simp [isAbsolute, ofSegments]
  | false =>
    cases segments with
    | nil => decide
    | cons s rest =>
      obtain ⟨hne, -, hslash⟩ := h s (List.mem_cons_self ..)
      obtain ⟨g, gs, hglyphs⟩ : ∃ g gs, s.glyphs = g :: gs := by
        refine List.exists_cons_of_ne_nil fun hnil => hne ?_
        exact congrArg RawText.mk hnil
      have hg : g ≠ slash := fun h => hslash (by simp [hglyphs, h])
      cases rest <;> simp [isAbsolute, ofSegments, hglyphs, List.intercalate_cons_cons, hg]

theorem split_ofSegments (h : ∀ s ∈ segments, IsSegment s) (hne : segments ≠ []) :
    split (ofSegments rooted segments) =
      if rooted then RawText.ofString "" :: segments else segments := by
  have hsplit := split_intercalate (fun s hs => (h s hs).no_slash) hne
  cases rooted with
  | false =>
    rw [ofSegments, if_neg Bool.false_ne_true, if_neg (by simpa using hne), hsplit]
    rfl
  | true =>
    rw [ofSegments, if_pos rfl, if_pos rfl, split, List.splitOn_cons_eq_if_modifyHead]
    exact congrArg (RawText.ofString "" :: ·) hsplit

theorem cleanSegments_ofSegments (h : Settled rooted stack) :
    cleanSegments (ofSegments rooted stack.reverse) = stack.reverse := by
  have hsegments : ∀ s ∈ stack.reverse, IsSegment s := by simpa using h.isSegment
  rw [cleanSegments, isAbsolute_ofSegments hsegments]
  by_cases hnil : stack = []
  · subst hnil
    cases rooted <;> decide
  rw [split_ofSegments hsegments (by simpa using hnil)]
  cases rooted with
  | false => exact congrArg List.reverse h.foldl_reverse
  | true =>
    rw [if_pos rfl, List.foldl_cons, push_empty]
    exact congrArg List.reverse h.foldl_reverse

theorem cleanSegments_clean (p : RawText) : cleanSegments (clean p) = cleanSegments p := by
  obtain ⟨stack, hstack, heq⟩ := exists_settled p
  rw [clean, heq, cleanSegments_ofSegments hstack]

/-! ## Valid names -/

theorem isPlain_of_validPath (h : validPath name = true) : ∀ s ∈ split name, IsPlain s := by
  simp only [validPath, Bool.and_eq_true, Bool.not_eq_true', List.all_eq_true, bne_iff_ne,
    beq_iff_eq] at h
  obtain ⟨⟨⟨⟨-, habsolute⟩, hclean⟩, -⟩, hdots⟩ := h
  have hsegments : split name = cleanSegments name := by
    by_cases hnil : cleanSegments name = []
    · have hname : name = "." := by
        rw [← hclean, clean, habsolute, hnil]
        rfl
      exact absurd rfl (hdots "." (by rw [hname]; decide)).1
    · calc split name = split (clean name) := by rw [hclean]
        _ = cleanSegments name := by
          rw [clean, habsolute]
          exact split_ofSegments (fun s => isSegment_of_mem_cleanSegments) hnil
  intro s hs
  exact ⟨isSegment_of_mem_cleanSegments (hsegments ▸ hs), (hdots s hs).2⟩

theorem cleanSegments_of_validPath (h : validPath name = true) :
    cleanSegments name = split name := by
  rw [cleanSegments, foldl_push_plain (isPlain_of_validPath h), List.append_nil,
    List.reverse_reverse]

/-- A valid name below a root has the segments of the root and then its own. -/
theorem cleanSegments_join (root : RawText) (h : validPath name = true) :
    cleanSegments (join root name) = cleanSegments root ++ split name := by
  have hname : name.isEmpty = false := by
    simp only [validPath, Bool.and_eq_true, Bool.not_eq_true'] at h
    exact h.1.1.1.1
  by_cases hroot : root.isEmpty = true
  · have heq : root = "" := congrArg RawText.mk (List.isEmpty_iff.1 hroot)
    subst heq
    rw [join, if_pos hroot, if_neg (by simp [hname]), cleanSegments_clean,
      cleanSegments_of_validPath h]
    rfl
  · have habsolute : isAbsolute (root ++ "/" ++ name) = isAbsolute root := by
      obtain ⟨g, gs, hglyphs⟩ : ∃ g gs, root.glyphs = g :: gs :=
        List.exists_cons_of_ne_nil fun hnil => hroot (by simp [RawText.isEmpty, hnil])
      show ((root.glyphs ++ [slash] ++ name.glyphs).head? == some slash) = _
      rw [isAbsolute, hglyphs]
      rfl
    rw [join, if_neg hroot, cleanSegments_clean, cleanSegments, habsolute, split_slash,
      List.foldl_append, foldl_push_plain (isPlain_of_validPath h), List.reverse_append,
      List.reverse_reverse]
    rfl

end Easel.Path
