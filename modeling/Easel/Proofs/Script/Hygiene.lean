import Easel.Proofs.Parser.Names
import Easel.Proofs.Script.Faithful
import Easel.Proofs.Script.Spelling

/-!
# Drawing functions are hygienic

A name that a field of a shape shows stands for what it stands for outside the shape, although the
function of the shape declares names of its own.  Either it is none of these, or it is spelled as a
parameter, and the argument of that parameter is the name as it is spelled one function further
out (`script_hygienic`).
-/

namespace Easel

open Script

/-! ## Spellings -/

/-- How a name is spelled inside the drawing functions `fs`. -/
def Script.spellingIn (fs : List Frame) (n : String) : String :=
  if fs ≠ [] ∧ n ∈ drawingLocals then captureName n else n

/-- The argument of a parameter. -/
def Script.Frame.argument? (f : Frame) (parameter : String) : Option String :=
  f.passed.lookup parameter

/-- The name that a spelling inside frames stands for outside them, or inside the first frame that
declares it otherwise than as a parameter of a function that is called at once. -/
def Script.resolve : List Frame → String → String × List Frame
  | [], spelling => (spelling, [])
  | f :: fs, spelling =>
    match f.argument? spelling with
    | some argument => resolve fs argument
    | none =>
      if spelling ∈ f.declared.map Prod.fst then (spelling, f :: fs) else resolve fs spelling

section Spellings

variable {n m : String}

theorem captureName_injective (h : captureName n = captureName m) : n = m := by
  have hchars := congrArg String.toList h
  simp only [captureName, String.toList_append] at hchars
  exact String.toList_inj.1 (List.append_cancel_right hchars)

theorem ne_captureName (h : '$' ∉ n.toList) : n ≠ captureName m := by
  rintro rfl
  exact h (by simp [captureName])

theorem spell_of_mem {captured : List String} (h : n ∈ captured) :
    spell captured n = captureName n := by
  rw [spell, if_pos (List.contains_iff_mem.2 h)]

theorem spell_of_not_mem {captured : List String} (h : n ∉ captured) : spell captured n = n := by
  rw [spell, if_neg (by simpa using h)]

/-- Only whether a name is captured counts. -/
theorem spell_congr {captured captured' : List String} (h : n ∈ captured ↔ n ∈ captured') :
    spell captured n = spell captured' n := by
  by_cases hn : n ∈ captured
  · rw [spell_of_mem hn, spell_of_mem (h.1 hn)]
  · rw [spell_of_not_mem hn, spell_of_not_mem fun hn' => hn (h.2 hn')]

theorem spellingIn_nil : spellingIn [] n = n := by
  simp [spellingIn]

theorem spellingIn_cons (f : Frame) (fs : List Frame) :
    spellingIn (f :: fs) n = spell drawingLocals n := by
  by_cases hn : n ∈ drawingLocals
  · rw [spell_of_mem hn, spellingIn, if_pos ⟨List.cons_ne_nil _ _, hn⟩]
  · rw [spell_of_not_mem hn, spellingIn, if_neg fun h => hn h.2]

theorem spellingIn_of_not_mem (fs : List Frame) (h : n ∉ drawingLocals) : spellingIn fs n = n := by
  rw [spellingIn, if_neg fun hn => h hn.2]

end Spellings

/-! ## Captured names -/

section Captured

variable {s : Shape} {n : String}

theorem Shape.mem_captured :
    n ∈ s.captured ↔ n ∈ drawingLocals ∧ ∃ f ∈ s.fields, ∃ id ∈ f.reads, id.name = n := by
  rw [captured, List.mem_filter, List.contains_iff_mem, mem_freeNames]
  simp only [List.mem_flatMap]
  grind

/-- In a field of a shape just the drawing locals are captured. -/
theorem Shape.spell_field {f : Expr} {id : Ident} (hf : f ∈ s.fields) (hid : id ∈ f.reads)
    {captured : List String} (h : captured ⊆ drawingLocals) :
    spell (s.captured ++ captured) id.name = spell drawingLocals id.name := by
  refine spell_congr ⟨fun hn => ?_, fun hn => ?_⟩
  · rcases List.mem_append.1 hn with hn | hn
    · exact s.captured_subset hn
    · exact h hn
  · exact List.mem_append_left _ (Shape.mem_captured.2 ⟨hn, f, hf, id, hid, rfl⟩)

theorem lookup_captureName {names : List String} (captured : List String) (h : n ∈ names) :
    (names.map fun m => (captureName m, spell captured m)).lookup (captureName n) =
      some (spell captured n) := by
  induction names with
  | nil => cases h
  | cons m names ih =>
    rw [List.map_cons, List.lookup_cons]
    split
    · next heq => rw [captureName_injective (eq_of_beq heq)]
    · next hne =>
      refine ih ((List.mem_cons.1 h).resolve_left ?_)
      rintro rfl
      simp at hne

theorem Shape.argument?_frame (captured : List String) (h : n ∈ s.captured) :
    (s.frame captured).argument? (captureName n) = some (spell captured n) :=
  lookup_captureName captured h

theorem Shape.argument?_frame_eq_none (captured : List String) (h : '$' ∉ n.toList) :
    (s.frame captured).argument? n = none := by
  refine List.lookup_eq_none_iff.2 fun p hp => ?_
  obtain ⟨m, -, rfl⟩ := List.mem_map.1 hp
  simpa using ne_captureName h

/-- The function of a shape declares no name of the language but drawing locals. -/
theorem Shape.not_mem_declared_frame (captured : List String) (h : '$' ∉ n.toList)
    (hn : n ∉ drawingLocals) : n ∉ (s.frame captured).declared.map Prod.fst := by
  rw [frame, List.map_map]
  intro hmem
  obtain ⟨m, hm, rfl⟩ := List.mem_map.1 hmem
  rcases List.mem_append.1 hm with hm | hm
  · obtain ⟨k, -, heq⟩ := List.mem_map.1 hm
    exact ne_captureName h heq.symm
  · exact hn (s.locals_subset hm)

end Captured

/-! ## Names inside drawing functions -/

section Uses

variable {captured : List String} {e : Expr} {n spelling : String} {fs : List Frame}

/-- An expression shows only names that it reads. -/
theorem Expr.Uses.exists_mem_reads (h : e.Uses captured n spelling fs) :
    ∃ id ∈ e.reads, id.name = n := by
  induction h with
  | ident id => exact ⟨id, List.mem_singleton_self id, rfl⟩
  | @child _ e c _ _ _ hc _ ih =>
    obtain ⟨id, hid, rfl⟩ := ih
    have hpart : c ∈ e.parts := by
      cases e with
      | shape => cases hc
      | _ => exact hc
    exact ⟨id, Expr.mem_reads_of_mem_parts hpart hid, rfl⟩
  | field hf _ ih =>
    obtain ⟨id, hid, rfl⟩ := ih
    exact ⟨id, Expr.mem_reads_of_mem_parts (e := .shape _ _) hf hid, rfl⟩
  | argument hn =>
    obtain ⟨-, f, hf, id, hid, rfl⟩ := Shape.mem_captured.1 hn
    exact ⟨id, Expr.mem_reads_of_mem_parts (e := .shape _ _) hf hid, rfl⟩

theorem Expr.Uses.spell_field {s : Shape} {f : Expr} (hf : f ∈ s.fields)
    (h : f.Uses (s.captured ++ captured) n spelling fs) (hcaptured : captured ⊆ drawingLocals) :
    spell (s.captured ++ captured) n = spell drawingLocals n := by
  obtain ⟨id, hid, rfl⟩ := h.exists_mem_reads
  exact Shape.spell_field hf hid hcaptured

/-- Outside the first drawing function a name is spelled by what is captured there, inside of it by
what drawing functions declare. -/
theorem Expr.Uses.spelling_eq (h : e.Uses captured n spelling fs)
    (hcaptured : captured ⊆ drawingLocals) :
    spelling = if fs = [] then spell captured n else spell drawingLocals n := by
  induction h with
  | ident id => exact (if_pos rfl).symm
  | child _ _ ih => exact ih hcaptured
  | @field captured p s f n spelling fs hf h ih =>
    rw [if_neg (by simp), ih (List.append_subset.2 ⟨s.captured_subset, hcaptured⟩),
      h.spell_field hf hcaptured, ite_self]
  | argument _ => exact (if_pos rfl).symm

/-- The frames around a name are those of shapes. -/
theorem Expr.Uses.exists_frame (h : e.Uses captured n spelling fs) :
    ∀ f ∈ fs, ∃ s captured', f = Shape.frame captured' s := by
  induction h with
  | ident | argument => exact List.forall_mem_nil _
  | child _ _ ih => exact ih
  | field _ _ ih =>
    refine List.forall_mem_append.2 ⟨ih, ?_⟩
    rintro f hf
    exact ⟨_, _, List.mem_singleton.1 hf⟩

/-- A function around a captured name has a parameter for it; the argument is the name as it is
spelled outside that function. -/
theorem Expr.Uses.argument?_eq (h : e.Uses captured n spelling fs)
    (hcaptured : captured ⊆ drawingLocals) (hn : n ∈ drawingLocals) {f : Frame}
    {outer : List Frame} (hf : f :: outer <:+ fs) :
    f.argument? (captureName n) =
      some (if outer = [] then spell captured n else spell drawingLocals n) := by
  induction h generalizing outer with
  | ident | argument => simp at hf
  | child _ _ ih => exact ih hcaptured hn hf
  | @field captured p s e n spelling fs he h ih =>
    obtain ⟨inner, heq, hinner⟩ := (List.suffix_concat_iff.1 hf).resolve_left (by simp)
    cases inner with
    | nil =>
      -- The function is that of the shape itself.
      obtain ⟨rfl, rfl⟩ := List.cons.inj heq
      obtain ⟨id, hid, rfl⟩ := h.exists_mem_reads
      exact Shape.argument?_frame _ (Shape.mem_captured.2 ⟨hn, e, he, id, hid, rfl⟩)
    | cons f' inner =>
      rw [List.cons_append] at heq
      obtain ⟨rfl, rfl⟩ := List.cons.inj heq
      have hcaptured' := List.append_subset.2 ⟨s.captured_subset, hcaptured⟩
      rw [ih hcaptured' hn hinner, h.spell_field he hcaptured, ite_self, if_neg (by simp)]

end Uses

/-! ## Following a name outwards -/

section Resolve

variable {n : String} {fs : List Frame}

/-- A function around a name either has a parameter for it, whose argument is the name as it is
spelled outside, or does not declare it. -/
def Script.Frame.Respects (f : Frame) (n : String) (outer : List Frame) : Prop :=
  if n ∈ drawingLocals then f.argument? (captureName n) = some (spellingIn outer n)
  else f.argument? n = none ∧ n ∉ f.declared.map Prod.fst

theorem Script.resolve_spellingIn (h : ∀ f outer, f :: outer <:+ fs → f.Respects n outer)
    (around : List Frame) : resolve (fs ++ around) (spellingIn fs n) = resolve around n := by
  induction fs with
  | nil => rw [List.nil_append, spellingIn_nil]
  | cons f fs ih =>
    have hf := h f fs List.suffix_rfl
    have hrest := ih fun f' outer hsuffix => h f' outer (hsuffix.trans (List.suffix_cons f fs))
    rw [List.cons_append, resolve, spellingIn_cons]
    by_cases hn : n ∈ drawingLocals
    · rw [Frame.Respects, if_pos hn] at hf
      rw [spell_of_mem hn, hf]
      exact hrest
    · rw [Frame.Respects, if_neg hn] at hf
      rw [spell_of_not_mem hn, hf.1]
      simp only [if_neg hf.2]
      rwa [spellingIn_of_not_mem fs hn] at hrest

end Resolve

/-! ## Hygiene -/

/-- The expression mentions the name in fields that are drawn, inside the shapes `ss`, the innermost
first. -/
inductive Expr.Mentions : Expr → String → List Shape → Prop
  | ident (id : Ident) : Mentions (.ident id) id.name []
  | child {e c : Expr} {n : String} {ss : List Shape} (hc : c ∈ e.children) (h : Mentions c n ss) :
      Mentions e n ss
  | field {p : Position} {s : Shape} {f : Expr} {n : String} {ss : List Shape} (hf : f ∈ s.fields)
      (h : Mentions f n ss) : Mentions (.shape p s) n (ss ++ [s])

/-- The functions of shapes inside one another, where the names `captured` are. -/
def Shape.frames (captured : List String) : List Shape → List Frame
  | [] => []
  | s :: ss => s.frame (ss.flatMap Shape.captured ++ captured) :: frames captured ss

section Hygiene

variable {captured : List String} {e : Expr} {n spelling : String} {fs : List Frame}

theorem Shape.frames_concat (ss : List Shape) (s : Shape) :
    Shape.frames captured (ss ++ [s]) =
      Shape.frames (s.captured ++ captured) ss ++ [s.frame captured] := by
  induction ss with
  | nil => rfl
  | cons s' ss ih => simp [frames, ih]

theorem Expr.Mentions.uses {ss : List Shape} (h : e.Mentions n ss) :
    e.Uses captured n (spell (ss.flatMap Shape.captured ++ captured) n)
      (Shape.frames captured ss) := by
  induction h generalizing captured with
  | ident id => exact .ident id
  | child hc _ ih => exact .child hc ih
  | @field p s f n ss hf _ ih =>
    have hfield : (ss ++ [s]).flatMap Shape.captured ++ captured =
        ss.flatMap Shape.captured ++ (s.captured ++ captured) := by simp
    rw [hfield, Shape.frames_concat]
    exact .field hf ih

theorem Expr.Uses.spelling_eq_spellingIn (h : e.Uses [] n spelling fs) :
    spelling = spellingIn fs n := by
  rw [h.spelling_eq (List.nil_subset _)]
  cases fs with
  | nil => rfl
  | cons f fs => rw [if_neg (List.cons_ne_nil f fs), spellingIn_cons]

theorem Expr.Uses.respects (he : e.Named) (h : e.Uses [] n spelling fs) {f : Frame}
    {outer : List Frame} (hf : f :: outer <:+ fs) : f.Respects n outer := by
  unfold Frame.Respects
  split_ifs with hn
  · rw [h.argument?_eq (List.nil_subset _) hn hf]
    cases outer with
    | nil => rw [if_pos rfl, spellingIn_nil]; rfl
    | cons f' outer => rw [if_neg (List.cons_ne_nil f' outer), spellingIn_cons]
  · obtain ⟨id, hid, rfl⟩ := h.exists_mem_reads
    have hdollar := (he id hid).not_mem_dollar
    obtain ⟨s, captured, rfl⟩ := h.exists_frame f (hf.mem List.mem_cons_self)
    exact ⟨s.argument?_frame_eq_none captured hdollar, s.not_mem_declared_frame captured hdollar hn⟩

end Hygiene

theorem Expr.Produced.named {e : Expr} (h : e.Produced) : e.Named := by
  obtain ⟨source, n, ts, hts, hread⟩ := h
  have hgenuine : ∀ t ∈ ts, t.Genuine := fun t ht => Token.genuine_lex source t (hts.mem ht)
  exact Parser.named_expressionWithin n Token.genuine_beyond ts hgenuine e hread

/-- The names that an expression mentions in the fields of its shapes are spelled with a dollar sign
exactly if they are drawing locals.  Each function around such a name has a parameter for it, whose
argument is the name as it is spelled outside that function, and none declares another name that is
mentioned inside it.  So a name stands for the same thing as outside the shapes. -/
theorem script_hygienic {e : Expr} (he : e.Produced) (nested : Bool) :
    (∀ n ss, e.Mentions n ss →
      (.use n (spellingIn (Shape.frames [] ss) n), Shape.frames [] ss) ∈
        occurrences (e.script [] nested)) ∧
    ∀ x ∈ occurrences (e.script [] nested), ∃ n fs, x = (.use n (spellingIn fs n), fs) ∧
      (∀ f outer, f :: outer <:+ fs →
        (n ∈ drawingLocals → f.argument? (captureName n) = some (spellingIn outer n)) ∧
        (n ∉ drawingLocals → n ∉ f.declared.map Prod.fst)) ∧
      ∀ around, resolve (fs ++ around) (spellingIn fs n) = resolve around n := by
  constructor
  · intro n ss h
    have huses : e.Uses [] n _ (Shape.frames [] ss) := h.uses
    rw [← huses.spelling_eq_spellingIn]
    exact Expr.mem_occurrences_script.2 ⟨_, _, _, rfl, huses⟩
  · intro x hx
    obtain ⟨n, spelling, fs, rfl, huses⟩ := Expr.mem_occurrences_script.1 hx
    have hrespects : ∀ f outer, f :: outer <:+ fs → f.Respects n outer := fun f outer hf =>
      huses.respects he.named hf
    refine ⟨n, fs, by rw [← huses.spelling_eq_spellingIn], fun f outer hf => ?_,
      resolve_spellingIn hrespects⟩
    have := hrespects f outer hf
    unfold Frame.Respects at this
    exact ⟨fun hn => by rwa [if_pos hn] at this, fun hn => by rw [if_neg hn] at this; exact this.2⟩

/-- The color of a line that is the color of a line comes in through two functions. -/
theorem script_hygienic_nested :
    let a : Nat → Expr := fun column => .ident ⟨⟨1, column⟩, "a"⟩
    let inner : Shape := .line (a 32) (a 35) (a 39) (a 42) (.ident ⟨⟨1, 51⟩, "color"⟩)
    let outer : Shape := .line (a 7) (a 10) (a 14) (a 17) (.shape ⟨1, 26⟩ inner)
    let e : Expr := .shape ⟨1, 1⟩ outer
    let fs := Shape.frames [] [inner, outer]
    e.Produced ∧ (.use "color" "color$", fs) ∈ occurrences (e.script [] false) ∧
      ∀ around, resolve (fs ++ around) "color$" = resolve around "color" := by
  intro a inner outer e fs
  have he : e.Produced :=
    ⟨"line (a, a) (a, a) color line (a, a) (a, a) color color", 9, _, List.suffix_rfl, by
      dsimp only [e, outer, inner, a]
      eq_refl⟩
  have hinner : (Expr.shape ⟨1, 26⟩ inner).Mentions "color" ([] ++ [inner]) :=
    .field (.tail _ (.tail _ (.tail _ (.tail _ (.head _))))) (.ident _)
  have houter : e.Mentions "color" ([inner] ++ [outer]) :=
    .field (.tail _ (.tail _ (.tail _ (.tail _ (.head _))))) hinner
  obtain ⟨hshown, hall⟩ := script_hygienic he false
  have huse : (.use "color" (spellingIn fs "color"), fs) ∈ occurrences (e.script [] false) :=
    hshown "color" _ houter
  have hspelling : spellingIn fs "color" = "color$" := by decide +kernel
  obtain ⟨n, fs', heq, -, hresolve⟩ := hall _ huse
  simp only [Prod.mk.injEq, Content.use.injEq] at heq
  obtain ⟨⟨rfl, -⟩, rfl⟩ := heq
  rw [hspelling] at huse hresolve
  exact ⟨he, huse, hresolve⟩

end Easel
