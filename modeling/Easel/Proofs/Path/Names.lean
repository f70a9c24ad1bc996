import Easel.Proofs.Path.Clean
import Mathlib.Data.List.TakeWhile

/-!
# File names at the end of paths

A path that names a file consists of a front, up to its last slash, and a name.  If the name is
plain, the path leads to the location of its front and then to the name (`cleanSegments_append`).
The parent of such a path and its last segment are its front and its name (`exists_name`), and a
path and what its extension or an addition make of it lie in one directory.
-/

namespace Easel.Path

open Text (Glyph)

variable {p name : RawText} {front last : List Glyph}

/-- The front of a path: nothing, or glyphs up to a slash. -/
def IsFront (front : List Glyph) : Prop := front = [] ∨ ∃ before, front = before ++ [slash]

/-- The path does not end with a slash, unless it is the root. -/
def NamesFile (p : RawText) : Prop := p.glyphs.getLast? = some slash → p = "/"

/-! ## Cutting a path at its last slash -/

theorem throughLastSlash_append (gs : List Glyph) :
    throughLastSlash gs ++ afterLastSlash gs = gs := by
  rw [throughLastSlash, afterLastSlash, ← List.reverse_append, List.takeWhile_append_dropWhile,
    List.reverse_reverse]

theorem isFront_throughLastSlash (gs : List Glyph) : IsFront (throughLastSlash gs) := by
  rw [throughLastSlash]
  cases hrest : gs.reverse.dropWhile (· != slash) with
  | nil => exact .inl rfl
  | cons g rest =>
    have hg := List.head?_dropWhile_not (· != slash) gs.reverse
    rw [hrest] at hg
    obtain rfl : g = slash := by simpa using hg
    exact .inr ⟨rest.reverse, List.reverse_cons⟩

theorem slash_not_mem_afterLastSlash (gs : List Glyph) : slash ∉ afterLastSlash gs := by
  rw [afterLastSlash, List.mem_reverse]
  intro hmem
  exact absurd (List.mem_takeWhile_imp hmem) (by simp)

theorem throughLastSlash_eq (hfront : IsFront front) (hlast : slash ∉ last) :
    throughLastSlash (front ++ last) = front := by
  have hall : ∀ g ∈ last.reverse, (g != slash) = true := by
    intro g hg
    rw [bne_iff_ne]
    rintro rfl
    exact hlast (List.mem_reverse.1 hg)
  rw [throughLastSlash, List.reverse_append, List.dropWhile_append_of_pos hall]
  obtain rfl | ⟨before, rfl⟩ := hfront
  · rfl
  · rw [List.reverse_append]
    simp

theorem afterLastSlash_eq (hfront : IsFront front) (hlast : slash ∉ last) :
    afterLastSlash (front ++ last) = last := by
  have hcut := throughLastSlash_append (front ++ last)
  rw [throughLastSlash_eq hfront hlast] at hcut
  exact List.append_cancel_left hcut

/-! ## Locations -/

theorem split_of_no_slash (h : slash ∉ name.glyphs) : split name = [name] := by
  rw [split, List.splitOn_eq_singleton h]
  rfl

/-- A plain name at the end of a path is the last segment of its location. -/
theorem cleanSegments_append (hfront : IsFront front) (hlast : IsPlain ⟨last⟩) :
    cleanSegments ⟨front ++ last⟩ = cleanSegments ⟨front⟩ ++ [⟨last⟩] := by
  have hname : split ⟨last⟩ = [⟨last⟩] := split_of_no_slash hlast.1.no_slash
  obtain rfl | ⟨before, rfl⟩ := hfront
  · rw [List.nil_append, cleanSegments, hname, List.foldl_cons, List.foldl_nil, push_plain hlast]
    rfl
  · have hsplit (gs : List Glyph) :
        split ⟨before ++ [slash] ++ gs⟩ = split ⟨before⟩ ++ split ⟨gs⟩ :=
      split_slash ⟨before⟩ ⟨gs⟩
    have habsolute : isAbsolute ⟨before ++ [slash] ++ last⟩ = isAbsolute ⟨before ++ [slash]⟩ := by
      cases before <;> rfl
    have hbefore := hsplit []
    rw [List.append_nil] at hbefore
    rw [cleanSegments, cleanSegments, habsolute, hsplit, hname, hbefore, List.foldl_append,
      List.foldl_append, List.foldl_cons, List.foldl_nil, push_plain hlast, List.reverse_cons]
    rfl

theorem cleanSegments_parent (hfront : IsFront front) (hlast : slash ∉ last) :
    cleanSegments (parent ⟨front ++ last⟩) = cleanSegments ⟨front⟩ := by
  rw [parent, cleanSegments_clean, throughLastSlash_eq hfront hlast]

theorem base_eq (hfront : IsFront front) (hlast : slash ∉ last) (hne : last ≠ []) :
    base ⟨front ++ last⟩ = ⟨last⟩ := by
  obtain ⟨before, g, rfl⟩ : ∃ before g, last = before ++ [g] := by
    obtain hnil | ⟨before, g, h⟩ := List.eq_nil_or_concat last
    · exact absurd hnil hne
    · exact ⟨before, g, by rw [h, List.concat_eq_append]⟩
  have hg : (g == slash) = false := by
    rw [beq_eq_false_iff_ne]
    rintro rfl
    exact hlast (by simp)
  have htrim : ((front ++ (before ++ [g])).reverse.dropWhile (· == slash)).reverse =
      front ++ (before ++ [g]) := by
    simp [hg]
  unfold base
  rw [if_neg (by simp [RawText.isEmpty])]
  simp only [htrim]
  rw [if_neg (by simp), afterLastSlash_eq hfront hlast]

/-- A path that names a file by a valid name has a front and that name, which is plain. -/
theorem exists_name (hp : NamesFile p) (hname : validPath (base p) = true) :
    ∃ front last, p = ⟨front ++ last⟩ ∧ IsFront front ∧ IsPlain ⟨last⟩ ∧ base p = ⟨last⟩ := by
  obtain ⟨gs⟩ := p
  have hcut := throughLastSlash_append gs
  have hfront := isFront_throughLastSlash gs
  have hlast := slash_not_mem_afterLastSlash gs
  by_cases hne : afterLastSlash gs = []
  · -- nothing behind the last slash: the path is empty or the root, and neither names a file
    rw [hne, List.append_nil] at hcut
    rw [hcut] at hfront
    obtain rfl | ⟨before, rfl⟩ := hfront
    · exact absurd hname (by decide +kernel)
    · have hroot := hp (by simp)
      rw [hroot] at hname
      exact absurd hname (by decide +kernel)
  · have hbase := base_eq hfront hlast hne
    rw [hcut] at hbase
    refine ⟨_, _, congrArg RawText.mk hcut.symm, hfront, ?_, hbase⟩
    rw [hbase] at hname
    have hsplit : split ⟨afterLastSlash gs⟩ = [⟨afterLastSlash gs⟩] := split_of_no_slash hlast
    exact isPlain_of_validPath hname _ (by rw [hsplit]; exact List.mem_singleton_self _)

/-- The last segment of a path and an addition, seen from the parent of the path, lead to the path
with the addition. -/
theorem cleanSegments_join_base {suffix : RawText} (hp : NamesFile p)
    (hname : validPath (base p) = true) (hsuffix : validPath (base p ++ suffix) = true)
    (hslash : slash ∉ suffix.glyphs) :
    cleanSegments (join (parent p) (base p ++ suffix)) =
        cleanSegments (parent p) ++ [base p ++ suffix] ∧
      cleanSegments (p ++ suffix) = cleanSegments (parent p) ++ [base p ++ suffix] := by
  obtain ⟨front, last, rfl, hfront, hlast, hbase⟩ := exists_name hp hname
  rw [hbase] at hsuffix ⊢
  have hsplit : split (⟨last⟩ ++ suffix) = [⟨last⟩ ++ suffix] := by
    refine split_of_no_slash fun hmem => ?_
    exact (List.mem_append.1 hmem).elim hlast.1.no_slash hslash
  have hplain : IsPlain (⟨last⟩ ++ suffix) :=
    isPlain_of_validPath hsuffix _ (by rw [hsplit]; exact List.mem_singleton_self _)
  refine ⟨by rw [cleanSegments_join _ hsuffix, hsplit], ?_⟩
  rw [cleanSegments_parent hfront hlast.1.no_slash]
  exact (congrArg (fun gs => cleanSegments ⟨gs⟩) (List.append_assoc front last suffix.glyphs)).trans
    (cleanSegments_append hfront hplain)

/-! ## Clean paths -/

theorem intercalate_concat {parts : List (List Glyph)} (hne : parts ≠ []) (part : List Glyph) :
    List.intercalate [slash] (parts ++ [part]) =
      List.intercalate [slash] parts ++ slash :: part := by
  induction parts with
  | nil => exact absurd rfl hne
  | cons first rest ih =>
    cases rest with
    | nil => simp [List.intercalate]
    | cons second rest =>
      rw [List.cons_append, List.cons_append, List.intercalate_cons_cons, ← List.cons_append,
        ih (List.cons_ne_nil _ _), List.intercalate_cons_cons, List.append_assoc, List.append_assoc,
        List.append_assoc]

/-- What stands before the last segment of a clean path. -/
def frontOf (rooted : Bool) (segments : List RawText) : List Glyph :=
  if segments = [] then (if rooted then [slash] else [])
  else (ofSegments rooted segments).glyphs ++ [slash]

theorem isFront_frontOf (rooted : Bool) (segments : List RawText) :
    IsFront (frontOf rooted segments) := by
  unfold frontOf
  split_ifs
  · exact .inr ⟨[], rfl⟩
  · exact .inl rfl
  · exact .inr ⟨_, rfl⟩

theorem ofSegments_concat (rooted : Bool) (segments : List RawText) (s : RawText) :
    ofSegments rooted (segments ++ [s]) = ⟨frontOf rooted segments ++ s.glyphs⟩ := by
  by_cases hnil : segments = []
  · subst hnil
    cases rooted <;> simp [ofSegments, frontOf, List.intercalate]
  · have hparts : segments.map RawText.glyphs ≠ [] := by simpa using hnil
    rw [frontOf, if_neg hnil, ofSegments, ofSegments, List.map_append, List.map_singleton,
      intercalate_concat hparts]
    cases rooted <;> simp [hnil]

theorem cleanSegments_concat_slash (hne : p.glyphs ≠ []) :
    cleanSegments ⟨p.glyphs ++ [slash]⟩ = cleanSegments p := by
  have hsplit : split ⟨p.glyphs ++ [slash]⟩ = split p ++ [RawText.ofString ""] := by
    have hslash := split_slash p ⟨[]⟩
    exact (congrArg (fun gs => split ⟨gs⟩) (List.append_nil _).symm).trans hslash
  have habsolute : isAbsolute ⟨p.glyphs ++ [slash]⟩ = isAbsolute p := by
    obtain ⟨g, gs, hglyphs⟩ := List.exists_cons_of_ne_nil hne
    rw [isAbsolute, isAbsolute, hglyphs]
    rfl
  rw [cleanSegments, cleanSegments, habsolute, hsplit, List.foldl_append, List.foldl_cons,
    List.foldl_nil, push_empty]

theorem cleanSegments_frontOf {rooted : Bool} {stack : List RawText} (h : Settled rooted stack) :
    cleanSegments ⟨frontOf rooted stack.reverse⟩ = stack.reverse := by
  by_cases hnil : stack = []
  · subst hnil
    cases rooted <;> decide +kernel
  · have hsegments := cleanSegments_ofSegments h
    have hne : (ofSegments rooted stack.reverse).glyphs ≠ [] := by
      intro hempty
      have hroot : cleanSegments (ofSegments rooted stack.reverse) = [] := by
        rw [show ofSegments rooted stack.reverse = ⟨[]⟩ from congrArg RawText.mk hempty]
        decide +kernel
      rw [hsegments] at hroot
      exact hnil (by simpa using hroot)
    rw [frontOf, if_neg (by simpa using hnil), cleanSegments_concat_slash hne, hsegments]

/-- A clean path with a location other than the root lies in the location of its front. -/
theorem exists_front_clean (hne : cleanSegments p ≠ []) :
    ∃ front last, clean p = ⟨front ++ last⟩ ∧ IsFront front ∧ slash ∉ last ∧ last ≠ [] ∧
      cleanSegments p = cleanSegments ⟨front⟩ ++ [⟨last⟩] := by
  obtain ⟨stack, hstack, hclean⟩ := exists_settled p
  cases stack with
  | nil => exact absurd hclean hne
  | cons s below =>
    obtain ⟨hs, -, hbelow⟩ := hstack
    rw [List.reverse_cons] at hclean
    refine ⟨frontOf (isAbsolute p) below.reverse, s.glyphs, ?_, isFront_frontOf _ _, hs.no_slash,
      fun hnil => hs.ne_empty (congrArg RawText.mk hnil), ?_⟩
    · rw [← ofSegments_concat, ← hclean, clean]
    · rw [cleanSegments_frontOf hbelow, hclean]

/-- The directory of a valid name below a root is the root. -/
theorem cleanSegments_parent_join (root : RawText) (hname : validPath name = true)
    (hslash : slash ∉ name.glyphs) :
    cleanSegments (parent (join root name)) = cleanSegments root := by
  have hjoin := cleanSegments_join root hname
  rw [split_of_no_slash hslash] at hjoin
  obtain ⟨p, hp⟩ : ∃ p, join root name = clean p := by
    have hne : name.isEmpty = false := by
      simp only [validPath, Bool.and_eq_true, Bool.not_eq_true'] at hname
      exact hname.1.1.1.1
    unfold join
    split
    · exact ⟨name, by simp [hne]⟩
    · exact ⟨_, rfl⟩
  rw [hp, cleanSegments_clean] at hjoin
  obtain ⟨front, last, hclean, hfront, hlast, -, hsegments⟩ :=
    exists_front_clean (hjoin ▸ List.concat_ne_nil name (cleanSegments root))
  rw [hp, hclean, cleanSegments_parent hfront hlast]
  exact (List.append_inj' (hsegments.symm.trans hjoin) rfl).1

/-- A name that ends with another character than a dot is plain. -/
theorem isPlain_of_getLast {c : Char} (hslash : slash ∉ last)
    (hlast : last.getLast? = some (.char c)) (hc : c ≠ '.') : IsPlain ⟨last⟩ := by
  have hne (s : String) (hs : s.toList.getLast? ≠ some c) : (⟨last⟩ : RawText) ≠ s := by
    intro heq
    have hglyphs : last = s.toList.map .char := congrArg RawText.glyphs heq
    rw [hglyphs, List.getLast?_map] at hlast
    obtain ⟨c', hc', heq'⟩ := Option.map_eq_some_iff.1 hlast
    exact hs (hc'.trans (congrArg some (Glyph.char.inj heq')))
  exact ⟨⟨hne "" (by simp), hne "." (by simpa using hc.symm), hslash⟩,
    hne ".." (by simpa using hc.symm)⟩

theorem length_extension_le (hfront : IsFront front) (hlast : slash ∉ last) :
    (extension ⟨front ++ last⟩).length ≤ last.length := by
  have hextension : extension ⟨front ++ last⟩ =
      if last.contains dot then dot :: (last.reverse.takeWhile (· != dot)).reverse else [] := by
    rw [extension, afterLastSlash_eq hfront hlast]
  rw [hextension]
  split
  · next hdot =>
    have hshort : (last.reverse.takeWhile (· != dot)).length < last.reverse.length := by
      refine Nat.lt_of_le_of_ne (List.takeWhile_sublist _).length_le fun heq => ?_
      have hall := List.takeWhile_eq_self_iff.1 ((List.takeWhile_sublist _).eq_of_length heq)
      exact absurd (hall dot (List.mem_reverse.2 (List.contains_iff_mem.1 hdot))) (by simp)
    rw [List.length_reverse] at hshort
    rw [List.length_cons, List.length_reverse]
    exact hshort
  · exact Nat.zero_le _

/-- Another extension changes the name only. -/
theorem replaceExtension_eq (hfront : IsFront front) (hlast : slash ∉ last) (ext : RawText) :
    ∃ stem, stem.Sublist last ∧
      replaceExtension ⟨front ++ last⟩ ext = ⟨front ++ (stem ++ ext.glyphs)⟩ := by
  have hlength := length_extension_le hfront hlast
  refine ⟨last.take (last.length - (extension ⟨front ++ last⟩).length), List.take_sublist _ _, ?_⟩
  have hcut : (front ++ last).length - (extension ⟨front ++ last⟩).length =
      front.length + (last.length - (extension ⟨front ++ last⟩).length) := by
    rw [List.length_append]
    omega
  rw [replaceExtension, hcut, List.take_length_add_append, ← List.append_assoc]
  rfl

theorem namesFile_of_last (hne : last ≠ []) (hlast : slash ∉ last) : NamesFile ⟨front ++ last⟩ := by
  intro hslash
  obtain ⟨g, hg⟩ := List.getLast?_isSome.2 hne |> Option.isSome_iff_exists.1
  rw [List.getLast?_append, hg] at hslash
  exact absurd (List.mem_of_getLast? hg) (by rw [Option.some.inj hslash]; exact hlast)

theorem namesFile_clean (p : RawText) : NamesFile (clean p) := by
  obtain ⟨stack, hstack, hclean⟩ := exists_settled p
  rw [clean, hclean]
  cases stack with
  | nil =>
    cases isAbsolute p
    · exact fun h => absurd h (by decide +kernel)
    · exact fun _ => rfl
  | cons s below =>
    obtain ⟨hne, -, hslash⟩ := hstack.isSegment s List.mem_cons_self
    rw [List.reverse_cons, ofSegments_concat]
    exact namesFile_of_last (fun hnil => hne (congrArg RawText.mk hnil)) hslash

theorem namesFile_replaceExtension (p : RawText) {ext : RawText} (hne : ext.glyphs ≠ [])
    (hext : slash ∉ ext.glyphs) : NamesFile (replaceExtension p ext) :=
  namesFile_of_last hne hext

end Easel.Path
