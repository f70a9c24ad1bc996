import Easel.Proofs.Path.Join

/-!
# Names below a root

A name is valid exactly if its segments are plain and no glyph of it is forbidden (`validPath_iff`).
Joining such a name to a clean absolute root writes it behind the root as it is (`join_valid`), so it
leads nowhere but below the root, and no two names lead to the same file: `names_below_root`.
-/

namespace Easel.Path

variable {root name : RawText}

theorem intercalate_split (p : RawText) :
    List.intercalate [slash] ((split p).map RawText.glyphs) = p.glyphs := by
  have hparts : (split p).map RawText.glyphs = p.glyphs.splitOn slash := by
    rw [split, List.map_map]
    exact List.map_id _
  rw [hparts, List.intercalate_splitOn]

theorem split_ne_nil (p : RawText) : split p ≠ [] := by
  rw [split, Ne, List.map_eq_nil_iff]
  exact List.splitOn_ne_nil _ _

theorem isAbsolute_of_segments (h : ∀ s ∈ split name, s ≠ "") : isAbsolute name = false := by
  obtain ⟨gs⟩ := name
  cases gs with
  | nil => rfl
  | cons g gs =>
    rw [isAbsolute, List.head?_cons, beq_eq_false_iff_ne]
    intro hg
    obtain rfl : g = slash := Option.some_inj.1 hg
    refine h ⟨[]⟩ (List.mem_map_of_mem ?_) rfl
    rw [List.splitOn_cons_eq_if_modifyHead, if_pos (beq_self_eq_true _)]
    exact List.mem_cons_self

/-- A relative path of plain segments is clean. -/
theorem clean_of_plain (habsolute : isAbsolute name = false)
    (hplain : ∀ s ∈ split name, IsPlain s) : clean name = name := by
  have hsegments : cleanSegments name = split name := by
    rw [cleanSegments, foldl_push_plain hplain, List.append_nil, List.reverse_reverse]
  rw [clean, habsolute, hsegments, ofSegments, if_neg Bool.false_ne_true,
    if_neg (by simpa using split_ne_nil name), intercalate_split]

/-- A name is valid if it is not empty, has none of the forbidden glyphs, and each of its segments
names something. -/
theorem validPath_iff (name : RawText) :
    validPath name = true ↔ name ≠ "" ∧ .char '\x00' ∉ name.glyphs ∧ .char '\\' ∉ name.glyphs ∧
      ∀ s ∈ split name, s ≠ "" ∧ s ≠ "." ∧ s ≠ ".." := by
  have hempty : name.isEmpty = false ↔ name ≠ "" := by
    rw [RawText.isEmpty, List.isEmpty_eq_false_iff]
    exact not_congr ⟨fun h => congrArg RawText.mk h, fun h => congrArg RawText.glyphs h⟩
  have hglyphs : name.glyphs.any (fun g => g == .char '\x00' || g == .char '\\') = false ↔
      .char '\x00' ∉ name.glyphs ∧ .char '\\' ∉ name.glyphs := by
    simp only [List.any_eq_false, Bool.or_eq_true, beq_iff_eq, not_or]
    constructor
    · intro h
      exact ⟨fun hmem => (h _ hmem).1 rfl, fun hmem => (h _ hmem).2 rfl⟩
    · rintro ⟨hnul, hbackslash⟩ g hg
      exact ⟨fun heq => hnul (heq ▸ hg), fun heq => hbackslash (heq ▸ hg)⟩
  constructor
  · intro h
    have hplain := isPlain_of_validPath h
    simp only [validPath, Bool.and_eq_true, Bool.not_eq_true'] at h
    obtain ⟨⟨⟨⟨hne, -⟩, -⟩, hforbidden⟩, -⟩ := h
    exact ⟨hempty.1 hne, (hglyphs.1 hforbidden).1, (hglyphs.1 hforbidden).2, fun s hs =>
      ⟨(hplain s hs).1.ne_empty, (hplain s hs).1.ne_dot, (hplain s hs).2⟩⟩
  · rintro ⟨hne, hnul, hbackslash, hsegments⟩
    have hplain : ∀ s ∈ split name, IsPlain s := fun s hs =>
      ⟨⟨(hsegments s hs).1, (hsegments s hs).2.1, no_slash_of_mem_split hs⟩, (hsegments s hs).2.2⟩
    have habsolute := isAbsolute_of_segments fun s hs => (hsegments s hs).1
    have hdots : (split name).all (fun s => s != "." && s != "..") = true := by
      rw [List.all_eq_true]
      intro s hs
      simpa using (hsegments s hs).2
    rw [validPath, hempty.2 hne, habsolute, clean_of_plain habsolute hplain,
      hglyphs.2 ⟨hnul, hbackslash⟩, hdots, beq_self_eq_true]
    rfl

theorem intercalate_append {first rest : List RawText} (hfirst : first ≠ []) (hrest : rest ≠ []) :
    List.intercalate [slash] ((first ++ rest).map RawText.glyphs) =
      List.intercalate [slash] (first.map RawText.glyphs) ++ slash ::
        List.intercalate [slash] (rest.map RawText.glyphs) := by
  induction first with
  | nil => exact absurd rfl hfirst
  | cons s more ih =>
    cases more with
    | nil =>
      obtain ⟨t, rest, rfl⟩ := List.exists_cons_of_ne_nil hrest
      simp [List.intercalate_cons_cons]
    | cons t more =>
      have hmore := ih (List.cons_ne_nil t more)
      simp only [List.cons_append, List.map_cons, List.intercalate_cons_cons] at hmore ⊢
      rw [hmore, ← List.append_assoc]

/-- A valid name stands behind a clean absolute root as it is. -/
theorem join_valid (hroot : isAbsolute root = true) (hclean : clean root = root)
    (hname : validPath name = true) :
    join root name = (if root = "/" then root else root ++ "/") ++ name := by
  have hjoin : join root name = ofSegments true (cleanSegments root ++ split name) := by
    rw [← cleanSegments_join root hname, ← isAbsolute_join hroot name]
    exact (clean_join hroot name).symm
  have hrootEq : root = ofSegments true (cleanSegments root) := by rw [← hroot]; exact hclean.symm
  by_cases hnil : cleanSegments root = []
  · rw [hnil] at hrootEq
    have hslash : root = "/" := hrootEq
    rw [if_pos hslash, hjoin, hnil, List.nil_append, hslash]
    exact congrArg (fun gs => RawText.mk (slash :: gs)) (intercalate_split name)
  · have hslash : root ≠ "/" := by
      rintro rfl
      exact hnil (by decide)
    rw [if_neg hslash, hjoin, ofSegments, if_pos rfl, intercalate_append hnil (split_ne_nil name),
      intercalate_split]
    conv_rhs => rw [hrootEq, ofSegments, if_pos rfl]
    refine congrArg RawText.mk ?_
    rw [← List.singleton_append (l := name.glyphs), ← List.cons_append, ← List.append_assoc]
    rfl

/-- What names are valid; and below a clean absolute root a valid name is written behind the root as
it is, and different names give different paths. -/
theorem names_below_root :
    (∀ name, validPath name = true ↔
      name ≠ "" ∧ .char '\x00' ∉ name.glyphs ∧ .char '\\' ∉ name.glyphs ∧
        ∀ s ∈ split name, s ≠ "" ∧ s ≠ "." ∧ s ≠ "..") ∧
    ∀ root, isAbsolute root = true → clean root = root →
      (∀ name, validPath name = true →
        join root name = (if root = "/" then root else root ++ "/") ++ name) ∧
      ∀ name name', validPath name = true → validPath name' = true → name ≠ name' →
        join root name ≠ join root name' := by
  refine ⟨validPath_iff, fun root hroot hclean => ⟨fun name => join_valid hroot hclean, ?_⟩⟩
  intro name name' hname hname' hne heq
  rw [join_valid hroot hclean hname, join_valid hroot hclean hname'] at heq
  exact hne (congrArg RawText.mk (List.append_cancel_left (congrArg RawText.glyphs heq)))

/-- Names with dots and blanks below a directory and below the root; a name that would leave the
directory is not valid. -/
theorem names_below_root_dots :
    isAbsolute "/a b/..." = true ∧ clean "/a b/..." = "/a b/..." ∧
      validPath "x/..y/.z" = true ∧ join "/a b/..." "x/..y/.z" = "/a b/.../x/..y/.z" ∧
      join "/" "x/..y/.z" = "/x/..y/.z" ∧ validPath "x/../../y" = false := by
  have hroot : isAbsolute "/a b/..." = true := by decide
  have hclean : clean "/a b/..." = "/a b/..." := by decide +kernel
  obtain ⟨hvalid, hbelow⟩ := names_below_root
  have hjoin := (hbelow _ hroot hclean).1
  have hname : validPath "x/..y/.z" = true := (hvalid _).2 (by decide +kernel)
  have hbad : ¬ validPath "x/../../y" = true := by
    rw [hvalid]
    decide +kernel
  refine ⟨hroot, hclean, hname, (hjoin _ hname).trans (by decide +kernel), ?_,
    Bool.eq_false_iff.2 hbad⟩
  exact ((hbelow "/" (by decide) (by decide)).1 _ hname).trans (by decide +kernel)

end Easel.Path
