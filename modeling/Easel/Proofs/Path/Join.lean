import Easel.Proofs.Path.Names

/-!
# Paths that are read from other paths

A path leads from one stack of segments to another (`follow`).  A relative path and its clean form
lead to the same place, so it does not matter whether paths are joined from the left or from the
right (`join_assoc`), and a name below a directory lies in the directory that its parent leads to
(`join_parent`).
-/

namespace Easel.Path

open Text (Glyph)

variable {root p q name : RawText} {stack below : List RawText} {front last : List Glyph}

/-- The stack of segments that a path leads to from another. -/
def follow (rooted : Bool) (stack : List RawText) (p : RawText) : List RawText :=
  (split p).foldl (push rooted) stack

/-- The path is relative and clean. -/
structure IsName (name : RawText) : Prop where
  relative : isAbsolute name = false
  clean : clean name = name

theorem cleanSegments_eq_follow (p : RawText) :
    cleanSegments p = (follow (isAbsolute p) [] p).reverse := rfl

theorem follow_empty (rooted : Bool) (stack : List RawText) : follow rooted stack ⟨[]⟩ = stack :=
  @push_empty rooted stack

theorem follow_slash (rooted : Bool) (stack : List RawText) (p q : RawText) :
    follow rooted stack (p ++ "/" ++ q) = follow rooted (follow rooted stack p) q := by
  rw [follow, split_slash, List.foldl_append]
  rfl

/-! ## Clean forms -/

theorem isAbsolute_clean (p : RawText) : isAbsolute (clean p) = isAbsolute p :=
  isAbsolute_ofSegments fun _ => isSegment_of_mem_cleanSegments

theorem clean_clean (p : RawText) : clean (clean p) = clean p := by
  rw [clean, isAbsolute_clean, cleanSegments_clean]
  rfl

theorem isAbsolute_slash (hp : p.isEmpty = false) (q : RawText) :
    isAbsolute (p ++ "/" ++ q) = isAbsolute p := by
  obtain ⟨g, gs, hglyphs⟩ : ∃ g gs, p.glyphs = g :: gs := by
    refine List.exists_cons_of_ne_nil fun hnil => ?_
    rw [RawText.isEmpty, hnil] at hp
    cases hp
  show ((p.glyphs ++ [slash] ++ q.glyphs).head? == some slash) = _
  rw [isAbsolute, hglyphs]
  rfl

/-- Pushing a segment onto a stack and then everything onto another is pushing everything and then
the segment. -/
theorem foldl_push_push (s : RawText) (hbelow : Settled false below) :
    (push false below s).reverse.foldl (push true) stack =
      push true (below.reverse.foldl (push true) stack) s := by
  rw [push.eq_def false]
  by_cases hblank : s = "" ∨ s = "."
  · rw [if_pos hblank, push.eq_def true, if_pos hblank]
  by_cases hup : s = ".."
  · rw [if_neg hblank, if_pos hup]
    cases below with
    | nil => rfl
    | cons t rest =>
      by_cases ht : t = ".."
      · simp only [ht, if_true, List.reverse_cons, List.foldl_append, List.foldl_cons,
          List.foldl_nil]
      · -- The plain segment that `..` takes away again was the last one pushed.
        simp only [ht, if_false, List.reverse_cons, List.foldl_append, List.foldl_cons,
          List.foldl_nil, push_plain ⟨hbelow.1, ht⟩]
        rw [push.eq_def true, if_neg hblank, if_pos hup]
        simp only [ht, if_false]
  · rw [if_neg hblank, if_neg hup, List.reverse_cons, List.foldl_append]
    rfl

theorem foldl_push_foldl {segments : List RawText} (hbelow : Settled false below)
    (hsegments : ∀ s ∈ segments, slash ∉ s.glyphs) :
    (segments.foldl (push false) below).reverse.foldl (push true) stack =
      segments.foldl (push true) (below.reverse.foldl (push true) stack) := by
  induction segments generalizing below with
  | nil => rfl
  | cons s rest ih =>
    obtain ⟨hs, hrest⟩ := List.forall_mem_cons.1 hsegments
    rw [List.foldl_cons, List.foldl_cons, ih (settled_push hbelow hs) hrest,
      foldl_push_push s hbelow]

/-- A relative path leads to where its clean segments lead. -/
theorem follow_eq_foldl (stack : List RawText) (hq : isAbsolute q = false) :
    follow true stack q = (cleanSegments q).foldl (push true) stack := by
  have hnil : Settled false [] := trivial
  rw [cleanSegments, hq]
  exact (foldl_push_foldl hnil fun _ => no_slash_of_mem_split).symm

/-- A relative path and its clean form lead to the same place. -/
theorem follow_clean (stack : List RawText) (hq : isAbsolute q = false) :
    follow true stack (clean q) = follow true stack q := by
  rw [follow_eq_foldl _ ((isAbsolute_clean q).trans hq), follow_eq_foldl _ hq, cleanSegments_clean]

/-! ## Joining -/

theorem isEmpty_of_isAbsolute (hroot : isAbsolute root = true) : root.isEmpty = false := by
  obtain ⟨gs⟩ := root
  cases gs with
  | nil => cases hroot
  | cons g rest => rfl

theorem join_of_absolute (hroot : isAbsolute root = true) (p : RawText) :
    join root p = clean (root ++ "/" ++ p) := by
  rw [join, isEmpty_of_isAbsolute hroot]
  rfl

theorem isAbsolute_join (hroot : isAbsolute root = true) (p : RawText) :
    isAbsolute (join root p) = true := by
  rw [join_of_absolute hroot, isAbsolute_clean, isAbsolute_slash (isEmpty_of_isAbsolute hroot),
    hroot]

theorem clean_join (hroot : isAbsolute root = true) (p : RawText) :
    clean (join root p) = join root p := by
  rw [join_of_absolute hroot, clean_clean]

theorem follow_root (hroot : isAbsolute root = true) :
    follow true [] root = (cleanSegments root).reverse := by
  rw [cleanSegments_eq_follow, hroot, List.reverse_reverse]

/-- A path below a root leads on from where the root leads. -/
theorem cleanSegments_join_of_absolute (hroot : isAbsolute root = true) (p : RawText) :
    cleanSegments (join root p) = (follow true (cleanSegments root).reverse p).reverse := by
  rw [join_of_absolute hroot, cleanSegments_clean, cleanSegments_eq_follow,
    isAbsolute_slash (isEmpty_of_isAbsolute hroot), hroot, follow_slash, follow_root hroot]

/-- Clean absolute paths are the same if they have the same segments. -/
theorem eq_of_cleanSegments (hp : isAbsolute p = true) (hclean : clean p = p)
    (hq : isAbsolute q = true) (hclean' : clean q = q) (heq : cleanSegments p = cleanSegments q) :
    p = q := by
  rw [← hclean, ← hclean', clean, clean, hp, hq, heq]

theorem join_eq_join {root' : RawText} (hroot : isAbsolute root = true)
    (hroot' : isAbsolute root' = true)
    (heq : follow true (cleanSegments root).reverse p =
      follow true (cleanSegments root').reverse q) :
    join root p = join root' q := by
  refine eq_of_cleanSegments (isAbsolute_join hroot p) (clean_join hroot p)
    (isAbsolute_join hroot' q) (clean_join hroot' q) ?_
  rw [cleanSegments_join_of_absolute hroot, cleanSegments_join_of_absolute hroot', heq]

theorem join_clean (hroot : isAbsolute root = true) (hq : isAbsolute q = false) :
    join root (clean q) = join root q :=
  join_eq_join hroot hroot (follow_clean _ hq)

theorem join_assoc (hroot : isAbsolute root = true) (hq : isAbsolute q = false)
    (hne : q.isEmpty = false) (p : RawText) : join root (join q p) = join (join root q) p := by
  have hqp : isAbsolute (q ++ "/" ++ p) = false := (isAbsolute_slash hne p).trans hq
  refine join_eq_join hroot (isAbsolute_join hroot q) ?_
  rw [join, if_neg (by simp [hne]), follow_clean _ hqp, follow_slash,
    cleanSegments_join_of_absolute hroot, List.reverse_reverse]

/-! ## Directories of names -/

theorem parent_ne_empty (p : RawText) : (parent p).isEmpty = false := by
  rw [parent, clean]
  generalize hrooted : isAbsolute _ = rooted
  generalize hsegments : cleanSegments _ = segments
  cases rooted with
  | true => rfl
  | false =>
    rcases List.eq_nil_or_concat segments with rfl | ⟨before, s, rfl⟩
    · rfl
    · have hs : IsSegment s :=
        isSegment_of_mem_cleanSegments (by rw [hsegments, List.concat_eq_append]; simp)
      obtain ⟨g, gs, hglyphs⟩ : ∃ g gs, s.glyphs = g :: gs :=
        List.exists_cons_of_ne_nil fun hnil => hs.ne_empty (congrArg RawText.mk hnil)
      rw [List.concat_eq_append, ofSegments_concat, hglyphs, RawText.isEmpty]
      simp

theorem follow_append_front (rooted : Bool) (stack : List RawText) (hfront : IsFront front)
    (hlast : slash ∉ last) :
    follow rooted stack ⟨front ++ last⟩ = push rooted (follow rooted stack ⟨front⟩) ⟨last⟩ := by
  have hfollow (stack : List RawText) : follow rooted stack ⟨last⟩ = push rooted stack ⟨last⟩ := by
    rw [follow, split_of_no_slash hlast]
    rfl
  obtain rfl | ⟨before, rfl⟩ := hfront
  · rw [List.nil_append, follow_empty, hfollow]
  · have hwhole := follow_slash rooted stack ⟨before⟩ ⟨last⟩
    have hbefore := follow_slash rooted stack ⟨before⟩ ⟨[]⟩
    have hslash : (⟨before⟩ ++ RawText.ofString "/" ++ ⟨[]⟩ : RawText) = ⟨before ++ [slash]⟩ :=
      congrArg RawText.mk (List.append_nil _)
    rw [hslash, follow_empty] at hbefore
    rw [hbefore]
    exact hwhole.trans (hfollow _)

theorem isAbsolute_front (hfront : IsFront front) (hlast : slash ∉ last) :
    isAbsolute ⟨front ++ last⟩ = isAbsolute ⟨front⟩ := by
  obtain rfl | ⟨before, rfl⟩ := hfront
  · cases last with
    | nil => rfl
    | cons g rest =>
      have hg : g ≠ slash := fun h => hlast (by simp [h])
      simp [isAbsolute, hg]
  · cases before <;> rfl

theorem isAbsolute_parent (p : RawText) : isAbsolute (parent p) = isAbsolute p := by
  rw [parent, isAbsolute_clean, ← isAbsolute_front (isFront_throughLastSlash p.glyphs)
    (slash_not_mem_afterLastSlash p.glyphs), throughLastSlash_append]

theorem isName_join (hq : isAbsolute q = false) (hne : q.isEmpty = false) (p : RawText) :
    IsName (join q p) := by
  rw [join, if_neg (by simp [hne])]
  exact ⟨by rw [isAbsolute_clean, isAbsolute_slash hne, hq], clean_clean _⟩

/-- A name that ends with a plain segment lies in the directory that its parent leads to. -/
theorem join_parent (hroot : isAbsolute root = true) (hname : IsName name)
    {segments : List RawText} {s : RawText} (hsegments : cleanSegments name = segments ++ [s])
    (hs : s ≠ "..") : join root (parent name) = parent (join root name) := by
  obtain ⟨front, last, hclean, hfront, hlast, -, hcut⟩ :=
    exists_front_clean (hsegments ▸ List.concat_ne_nil s segments)
  obtain ⟨-, hends⟩ := List.append_inj' (hcut.symm.trans hsegments) rfl
  rw [hname.clean] at hclean
  have hplain : IsPlain ⟨last⟩ := by
    refine ⟨isSegment_of_mem_cleanSegments (p := name) ?_, List.singleton_inj.1 hends ▸ hs⟩
    rw [hcut]
    exact List.mem_append_right _ (List.mem_singleton_self _)
  have hrelative : isAbsolute ⟨front⟩ = false := by
    rw [← isAbsolute_front hfront hlast, ← hclean, hname.relative]
  have hdirectory : join root (parent name) = join root ⟨front⟩ := by
    rw [parent, hclean, throughLastSlash_eq hfront hlast, join_clean hroot hrelative]
  have hwhole : cleanSegments (join root name) = cleanSegments (join root ⟨front⟩) ++ [⟨last⟩] := by
    rw [cleanSegments_join_of_absolute hroot, cleanSegments_join_of_absolute hroot, hclean,
      follow_append_front _ _ hfront hlast, push_plain hplain, List.reverse_cons]
  obtain ⟨front', last', hclean', hfront', hlast', -, hcut'⟩ :=
    exists_front_clean (hwhole ▸ List.concat_ne_nil _ _)
  rw [clean_join hroot] at hclean'
  have habsolute : isAbsolute ⟨front'⟩ = true := by
    rw [← isAbsolute_front hfront' hlast', ← hclean', isAbsolute_join hroot]
  rw [hdirectory, parent, hclean', throughLastSlash_eq hfront' hlast']
  refine eq_of_cleanSegments (isAbsolute_join hroot _) (clean_join hroot _)
    ((isAbsolute_clean _).trans habsolute) (clean_clean _) ?_
  rw [cleanSegments_clean]
  exact (List.append_inj' (hwhole.symm.trans hcut') rfl).1

/-- A clean absolute path other than the root is a name below its parent. -/
theorem join_parent_base (hp : isAbsolute p = true) (hclean : clean p = p)
    (hne : cleanSegments p ≠ []) :
    IsName (base p) ∧ join (parent p) (base p) = p ∧
      cleanSegments p = cleanSegments (parent p) ++ [base p] := by
  obtain ⟨front, last, hcut, hfront, hlast, hlastNe, hsegments⟩ := exists_front_clean hne
  have hplain : IsPlain ⟨last⟩ := by
    obtain ⟨stack, hstack, hstackEq⟩ := exists_settled p
    rw [hsegments, ← List.reverse_inj, List.reverse_append, List.reverse_reverse] at hstackEq
    rw [← hstackEq, hp] at hstack
    obtain ⟨hsegment, hup, -⟩ := hstack
    exact ⟨hsegment, fun h => Bool.noConfusion (hup h).1⟩
  rw [hclean] at hcut
  have hbase : base p = ⟨last⟩ := by rw [hcut, base_eq hfront hlast hlastNe]
  have hparent : cleanSegments p = cleanSegments (parent p) ++ [base p] := by
    rw [hbase, hsegments, hcut, cleanSegments_parent hfront hlast]
  have hsplit : split ⟨last⟩ = [⟨last⟩] := split_of_no_slash hlast
  have hrelative : isAbsolute ⟨last⟩ = false := by
    cases last with
    | nil => rfl
    | cons g rest =>
      have hg : g ≠ slash := fun h => hlast (by simp [h])
      simp [isAbsolute, hg]
  have hroot : isAbsolute (parent p) = true := (isAbsolute_parent p).trans hp
  refine ⟨hbase ▸ ⟨hrelative, ?_⟩, ?_, hparent⟩
  · rw [clean, cleanSegments, hrelative, hsplit, List.foldl_cons, List.foldl_nil, push_plain hplain]
    exact congrArg RawText.mk (List.append_nil last)
  · refine eq_of_cleanSegments (isAbsolute_join hroot _) (clean_join hroot _) hp hclean ?_
    rw [cleanSegments_join_of_absolute hroot, hparent, hbase, follow, hsplit, List.foldl_cons,
      List.foldl_nil, push_plain hplain, List.reverse_cons, List.reverse_reverse]

end Easel.Path
