import Easel.Script.Expr
import Mathlib.Tactic.Common

/-!
# Scopes of scripts

A name in a script belongs to the scopes around it.  A scope is seen from inside as a `Frame`: the
names declared anywhere in it, though not in a scope inside it, and, if it is a function that is
called at once, its parameters with their arguments.  `Script.occurrences` lists the names of the
program in a script, each with the frames around it, the innermost first.
-/

namespace Easel.Script

/-! ## Frames -/

/-- A scope as it is seen from inside. -/
structure Frame where
  /-- The names declared in the scope. -/
  declared : List (String × Owner)
  /-- The parameters, with how their arguments are spelled, of a function that is called at once. -/
  passed : List (String × String)
  deriving DecidableEq, Repr

/-- What a script says, its comments and blank lines apart. -/
def contents (s : Script) : List Content := (s.filter fun i => !i.isLayout).map Item.content

/-- What stands directly in a scope, given what follows its opening; `depth` scopes inside it are
open. -/
def direct : List Content → Nat → List Content
  | [], _ => []
  | .enter :: rest, depth => direct rest (depth + 1)
  | .leave :: _, 0 => []
  | .leave :: rest, depth + 1 => direct rest depth
  | c :: rest, 0 => c :: direct rest 0
  | _ :: rest, depth + 1 => direct rest (depth + 1)

/-- What stands behind a scope, given what follows its opening. -/
def behind : List Content → Nat → List Content
  | [], _ => []
  | .enter :: rest, depth => behind rest (depth + 1)
  | .leave :: rest, 0 => rest
  | .leave :: rest, depth + 1 => behind rest depth
  | _ :: rest, depth => behind rest depth

namespace Content

/-- A declared name and who chose it. -/
def declared? : Content → Option (String × Owner)
  | .bind name owner => some (name, owner)
  | _ => none

/-- The spelling of a name that is read or assigned. -/
def spelling? : Content → Option String
  | .use _ spelling => some spelling
  | _ => none

/-- Whether the content is a name of the program: one that is read, assigned, or declared by it. -/
def isName : Content → Bool
  | .use _ _ | .bind _ .program => true
  | _ => false

end Content

/-- The parameters of a function that is called at once, with the spelling of their arguments, given
what stands in the function and what stands behind it. -/
def passedTo (inside rest : List Content) : List (String × String) :=
  if inside.head? = some (.code "(function(") ∧ rest.head? = some (.code "(") then
    ((inside.takeWhile (· ≠ .lineEnd)).filterMap fun c => c.declared?.map Prod.fst).zip
      ((rest.takeWhile (· ≠ .code ")")).filterMap Content.spelling?)
  else []

/-- The frame of a scope, given what follows its opening. -/
def Frame.opening (rest : List Content) : Frame where
  declared := (direct rest 0).filterMap Content.declared?
  passed := passedTo (direct rest 0) (behind rest 0)

/-- The frames around what follows a piece of a script. -/
def Content.framesAfter (c : Content) (rest : List Content) (fs : List Frame) : List Frame :=
  match c with
  | .enter => Frame.opening rest :: fs
  | .leave => fs.tail
  | _ => fs

/-- The pieces of a script with the frames around them, where `fs` are around the first and `after`
follows the last. -/
def located (after : List Content) : List Frame → List Content → List (Content × List Frame)
  | _, [] => []
  | fs, c :: rest => (c, fs) :: located after (c.framesAfter (rest ++ after) fs) rest

/-- The names of the program in a script that `after` follows, with the frames around them. -/
def occurrencesBefore (after : List Content) (s : Script) : List (Content × List Frame) :=
  (located after [] s.contents).filter fun x => x.1.isName

/-- The names of the program in a script, with the frames around them. -/
def occurrences (s : Script) : List (Content × List Frame) := s.occurrencesBefore []

/-! ## Contents -/

section Contents

variable (s s' : Script)

@[simp] theorem contents_nil : contents [] = [] := rfl

@[simp] theorem contents_append : contents (s ++ s') = contents s ++ contents s' := by
  simp [contents]

@[simp] theorem contents_code (text : String) : contents (code text) = [.code text] := rfl

@[simp] theorem contents_use (name spelling : String) :
    contents (use name spelling) = [.use name spelling] := rfl

@[simp] theorem contents_bind (name : String) (owner : Owner) :
    contents (bind name owner) = [.bind name owner] := rfl

@[simp] theorem contents_lineEnd : contents lineEnd = [.lineEnd] := rfl

@[simp] theorem contents_comment (text : String) : contents (comment text) = [] := rfl

@[simp] theorem contents_blankLine : contents blankLine = [] := rfl

@[simp] theorem contents_line (text : String) : contents (line text) = [.code text, .lineEnd] := rfl

@[simp] theorem contents_inScope :
    contents (inScope s) = .enter :: (contents s ++ [.leave]) := by
  simp [inScope, contents, Item.isLayout]

@[simp] theorem contents_indented : contents (indented s) = contents s := by
  simp only [contents, indented, List.filter_map, List.map_map]
  rfl

@[simp] theorem contents_comingFrom (p : Position) : contents (comingFrom p s) = contents s := by
  simp only [contents, comingFrom, List.filter_map, List.map_map]
  rfl

@[simp] theorem contents_compact : contents (compact s) = contents s := by
  simp only [contents, compact, List.filter_map, List.map_map]
  rw [show ((fun i : Item => !i.isLayout) ∘ fun i => { i with indent := 0 }) =
    fun i : Item => !i.isLayout from rfl, List.filter_filter]
  simp only [Bool.and_self]
  rfl

end Contents

/-! ## Scopes that are closed -/

/-- Every scope that is opened is closed, and no other. -/
inductive Balanced : List Content → Prop
  | nil : Balanced []
  | cons {c : Content} {cs : List Content} (henter : c ≠ .enter) (hleave : c ≠ .leave)
      (h : Balanced cs) : Balanced (c :: cs)
  | scope {inside cs : List Content} (hinside : Balanced inside) (h : Balanced cs) :
      Balanced (.enter :: (inside ++ .leave :: cs))

section Balanced

variable {c : Content} {cs cs' rest after : List Content} {fs : List Frame}

@[simp] theorem direct_enter (rest : List Content) (depth : Nat) :
    direct (.enter :: rest) depth = direct rest (depth + 1) := by
  cases depth <;> rfl

@[simp] theorem direct_leave_zero (rest : List Content) : direct (.leave :: rest) 0 = [] := rfl

@[simp] theorem direct_leave_succ (rest : List Content) (depth : Nat) :
    direct (.leave :: rest) (depth + 1) = direct rest depth := rfl

theorem direct_cons_zero (henter : c ≠ .enter) (hleave : c ≠ .leave) (rest : List Content) :
    direct (c :: rest) 0 = c :: direct rest 0 := by
  cases c <;> first | rfl | contradiction

theorem direct_cons_succ (henter : c ≠ .enter) (hleave : c ≠ .leave) (rest : List Content)
    (depth : Nat) : direct (c :: rest) (depth + 1) = direct rest (depth + 1) := by
  cases c <;> first | rfl | contradiction

theorem behind_cons (henter : c ≠ .enter) (hleave : c ≠ .leave) (rest : List Content)
    (depth : Nat) : behind (c :: rest) depth = behind rest depth := by
  cases c <;> first | contradiction | (cases depth <;> rfl)

theorem Balanced.append (h : Balanced cs) (h' : Balanced cs') : Balanced (cs ++ cs') := by
  induction h with
  | nil => exact h'
  | cons henter hleave _ ih => exact .cons henter hleave ih
  | scope hinside _ _ ih =>
    rw [List.cons_append, List.append_assoc, List.cons_append]
    exact .scope hinside ih

theorem Balanced.direct_append (h : Balanced cs) (rest : List Content) :
    direct (cs ++ rest) 0 = direct cs 0 ++ direct rest 0 ∧
      ∀ depth, direct (cs ++ rest) (depth + 1) = direct rest (depth + 1) := by
  induction h generalizing rest with
  | nil => exact ⟨rfl, fun _ => rfl⟩
  | cons henter hleave _ ih =>
    obtain ⟨hzero, hsucc⟩ := ih rest
    constructor
    · rw [List.cons_append, direct_cons_zero henter hleave, hzero, direct_cons_zero henter hleave,
        List.cons_append]
    · intro depth
      rw [List.cons_append, direct_cons_succ henter hleave, hsucc]
  | @scope inside cs _ _ ihinside ih =>
    obtain ⟨hzero, hsucc⟩ := ih rest
    have hskip (more : List Content) (depth : Nat) :
        direct (.enter :: (inside ++ .leave :: more)) depth = direct more depth := by
      rw [direct_enter, (ihinside _).2, direct_leave_succ]
    rw [List.cons_append, List.append_assoc, List.cons_append]
    constructor
    · rw [hskip, hskip, hzero]
    · intro depth
      rw [hskip, hsucc]

theorem Balanced.behind_append (h : Balanced cs) (rest : List Content) (depth : Nat) :
    behind (cs ++ rest) depth = behind rest depth := by
  induction h generalizing rest depth with
  | nil => rfl
  | cons henter hleave _ ih => rw [List.cons_append, behind_cons henter hleave, ih]
  | @scope inside cs _ _ ihinside ih =>
    have hskip (more : List Content) :
        behind (.enter :: (inside ++ .leave :: more)) depth = behind more depth := by
      have henter : behind (.enter :: (inside ++ .leave :: more)) depth =
          behind (inside ++ .leave :: more) (depth + 1) := by
        cases depth <;> rfl
      rw [henter, ihinside]
      rfl
    rw [List.cons_append, List.append_assoc, List.cons_append, hskip, ih]

theorem Balanced.of_append (h : Balanced cs) (h' : Balanced (cs ++ cs')) : Balanced cs' := by
  induction h with
  | nil => exact h'
  | @cons c cs henter _ _ ih =>
    rw [List.cons_append] at h'
    generalize hall : cs ++ cs' = all at h'
    cases h' with
    | cons _ _ h' => exact ih (hall ▸ h')
    | scope => exact absurd rfl henter
  | @scope inside cs hinside _ _ ih =>
    rw [List.cons_append, List.append_assoc, List.cons_append] at h'
    generalize hall : inside ++ .leave :: (cs ++ cs') = all at h'
    cases h' with
    | cons henter _ _ => exact absurd rfl henter
    | @scope inside' cs'' hinside' h' =>
      -- Both ways to close the scope leave the same behind it.
      have hrest := congrArg (behind · 0) hall
      simp only [hinside.behind_append, hinside'.behind_append, behind] at hrest
      exact ih (hrest ▸ h')

theorem located_cons (henter : c ≠ .enter) (hleave : c ≠ .leave) :
    located after fs (c :: cs) = (c, fs) :: located after fs cs := by
  cases c <;> first | rfl | contradiction

/-- The frame of a scope that is closed. -/
theorem Balanced.opening_eq (h : Balanced cs) (rest : List Content) :
    Frame.opening (cs ++ .leave :: rest) =
      ⟨(direct cs 0).filterMap Content.declared?, passedTo (direct cs 0) rest⟩ := by
  rw [Frame.opening, (h.direct_append _).1, h.behind_append, direct_leave_zero, List.append_nil]
  rfl

theorem Balanced.located_append (h : Balanced cs) (cs' : List Content) :
    located after fs (cs ++ cs') = located (cs' ++ after) fs cs ++ located after fs cs' := by
  induction h generalizing cs' fs after with
  | nil => rfl
  | cons henter hleave _ ih =>
    rw [List.cons_append, located_cons henter hleave, ih, located_cons henter hleave,
      List.cons_append]
  | @scope inside cs _ _ ihinside ih =>
    simp only [List.cons_append, List.append_assoc, located, Content.framesAfter]
    rw [ihinside, ihinside]
    simp only [List.cons_append, located, Content.framesAfter, List.tail_cons, ih,
      List.append_assoc]

/-- What is around a piece is around all of it. -/
theorem Balanced.located_eq_map (h : Balanced cs) (after : List Content) (fs : List Frame) :
    located after fs cs = (located after [] cs).map fun x => (x.1, x.2 ++ fs) := by
  induction h generalizing after fs with
  | nil => rfl
  | cons henter hleave _ ih =>
    rw [located_cons henter hleave, located_cons henter hleave, ih, List.map_cons, List.nil_append]
  | @scope inside cs hinside _ ihinside ih =>
    simp only [located, Content.framesAfter, hinside.located_append, List.tail_cons, List.map_cons,
      List.map_append, List.nil_append]
    rw [ihinside _ (_ :: fs), ihinside _ [_], ih after fs]
    simp [Function.comp_def]

theorem balanced_of_forall_ne (h : ∀ c ∈ cs, c ≠ .enter ∧ c ≠ .leave) : Balanced cs := by
  induction cs with
  | nil => exact .nil
  | cons c cs ih =>
    obtain ⟨⟨henter, hleave⟩, hcs⟩ := List.forall_mem_cons.1 h
    exact .cons henter hleave (ih hcs)

theorem direct_of_forall_ne (h : ∀ c ∈ cs, c ≠ .enter ∧ c ≠ .leave) : direct cs 0 = cs := by
  induction cs with
  | nil => rfl
  | cons c cs ih =>
    obtain ⟨⟨henter, hleave⟩, hcs⟩ := List.forall_mem_cons.1 h
    rw [direct_cons_zero henter hleave, ih hcs]

theorem located_of_forall_ne (h : ∀ c ∈ cs, c ≠ .enter ∧ c ≠ .leave) (after : List Content)
    (fs : List Frame) : located after fs cs = cs.map (·, fs) := by
  induction cs with
  | nil => rfl
  | cons c cs ih =>
    obtain ⟨⟨henter, hleave⟩, hcs⟩ := List.forall_mem_cons.1 h
    rw [located_cons henter hleave, ih hcs, List.map_cons]

end Balanced

/-! ## Scripts that do not depend on what follows -/

/-- The script closes the scopes it opens, and its names have the same frames around them whatever
follows it. -/
structure Steady (s : Script) : Prop where
  balanced : Balanced s.contents
  occurrences_eq : ∀ after, s.occurrencesBefore after = s.occurrences

section Steady

variable {s s' : Script} {c : Content}

theorem occurrencesBefore_append (h : Balanced s.contents) (s' : Script) (after : List Content) :
    occurrencesBefore after (s ++ s') =
      occurrencesBefore (s'.contents ++ after) s ++ occurrencesBefore after s' := by
  simp only [occurrencesBefore, contents_append, h.located_append, List.filter_append]

@[simp] theorem occurrences_append (h : Steady s) (s' : Script) :
    occurrences (s ++ s') = occurrences s ++ occurrences s' := by
  rw [occurrences, occurrencesBefore_append h.balanced, h.occurrences_eq]
  rfl

theorem Steady.append (h : Steady s) (h' : Steady s') : Steady (s ++ s') := by
  refine ⟨?_, fun after => ?_⟩
  · rw [contents_append]
    exact h.balanced.append h'.balanced
  · rw [occurrencesBefore_append h.balanced, h.occurrences_eq, h'.occurrences_eq,
      occurrences_append h]

-- This form takes a long script apart from the left, one piece at a time.
@[simp] theorem steady_append_iff (h : Steady s) : Steady (s ++ s') ↔ Steady s' := by
  refine ⟨fun h' => ⟨?_, fun after => ?_⟩, h.append⟩
  · have hbalanced := h'.balanced
    rw [contents_append] at hbalanced
    exact h.balanced.of_append hbalanced
  · have heq := h'.occurrences_eq after
    rw [occurrencesBefore_append h.balanced, occurrences_append h, h.occurrences_eq] at heq
    exact List.append_cancel_left heq

theorem steady_of_contents_eq (h : contents s = contents s') (h' : Steady s') : Steady s := by
  refine ⟨h ▸ h'.balanced, fun after => ?_⟩
  rw [occurrences, occurrencesBefore, occurrencesBefore, h]
  exact h'.occurrences_eq after

theorem steady_of_forall_ne (h : ∀ c ∈ contents s, c ≠ .enter ∧ c ≠ .leave) : Steady s := by
  refine ⟨balanced_of_forall_ne h, fun after => ?_⟩
  rw [occurrences, occurrencesBefore, occurrencesBefore, located_of_forall_ne h,
    located_of_forall_ne h]

@[simp] theorem steady_nil : Steady [] := steady_of_forall_ne (by simp)

@[simp] theorem steady_code (text : String) : Steady (code text) := steady_of_forall_ne (by simp)

@[simp] theorem steady_use (name spelling : String) : Steady (use name spelling) :=
  steady_of_forall_ne (by simp)

@[simp] theorem steady_bind (name : String) (owner : Owner) : Steady (bind name owner) :=
  steady_of_forall_ne (by simp)

@[simp] theorem steady_lineEnd : Steady lineEnd := steady_of_forall_ne (by simp)

@[simp] theorem steady_line (text : String) : Steady (line text) := steady_of_forall_ne (by simp)

@[simp] theorem steady_comment (text : String) : Steady (comment text) :=
  steady_of_forall_ne (by simp)

@[simp] theorem steady_indented : Steady (indented s) ↔ Steady s :=
  ⟨steady_of_contents_eq (contents_indented s).symm, steady_of_contents_eq (contents_indented s)⟩

@[simp] theorem steady_comingFrom (p : Position) : Steady (comingFrom p s) ↔ Steady s :=
  ⟨steady_of_contents_eq (contents_comingFrom s p).symm,
    steady_of_contents_eq (contents_comingFrom s p)⟩

end Steady

/-! ## Declared names -/

section Declared

variable {s : Script}

/-- The names declared in a script, though not in a scope inside it. -/
def declared (s : Script) : List (String × Owner) :=
  (direct s.contents 0).filterMap Content.declared?

@[simp] theorem declared_append (h : Steady s) (s' : Script) :
    declared (s ++ s') = declared s ++ declared s' := by
  rw [declared, contents_append, (h.balanced.direct_append _).1, List.filterMap_append]
  rfl

@[simp] theorem declared_inScope (h : Steady s) : declared (inScope s) = [] := by
  rw [declared, contents_inScope, direct_enter, (h.balanced.direct_append _).2]
  rfl

@[simp] theorem declared_nil : declared [] = [] := rfl

@[simp] theorem declared_code (text : String) : declared (code text) = [] := rfl

@[simp] theorem declared_use (name spelling : String) : declared (use name spelling) = [] := rfl

@[simp] theorem declared_bind (name : String) (owner : Owner) :
    declared (bind name owner) = [(name, owner)] := rfl

@[simp] theorem declared_lineEnd : declared lineEnd = [] := rfl

@[simp] theorem declared_line (text : String) : declared (line text) = [] := rfl

@[simp] theorem declared_comment (text : String) : declared (comment text) = [] := rfl

@[simp] theorem declared_indented (s : Script) : declared (indented s) = declared s := by
  rw [declared, contents_indented, declared]

@[simp] theorem declared_comingFrom (p : Position) (s : Script) :
    declared (comingFrom p s) = declared s := by
  rw [declared, contents_comingFrom, declared]

end Declared

/-! ## Occurrences -/

section Occurrences

variable {s : Script}

@[simp] theorem occurrences_nil : occurrences [] = [] := rfl

@[simp] theorem occurrences_code (text : String) : occurrences (code text) = [] := rfl

@[simp] theorem occurrences_use (name spelling : String) :
    occurrences (use name spelling) = [(.use name spelling, [])] := rfl

@[simp] theorem occurrences_bind_program (name : String) :
    occurrences (bind name .program) = [(.bind name .program, [])] := rfl

@[simp] theorem occurrences_bind_pattern (name : String) :
    occurrences (bind name .pattern) = [] := rfl

@[simp] theorem occurrences_lineEnd : occurrences lineEnd = [] := rfl

@[simp] theorem occurrences_line (text : String) : occurrences (line text) = [] := rfl

@[simp] theorem occurrences_comment (text : String) : occurrences (comment text) = [] := rfl

@[simp] theorem occurrences_indented (s : Script) : occurrences (indented s) = occurrences s := by
  rw [occurrences, occurrencesBefore, contents_indented]
  rfl

@[simp] theorem occurrences_comingFrom (p : Position) (s : Script) :
    occurrences (comingFrom p s) = occurrences s := by
  rw [occurrences, occurrencesBefore, contents_comingFrom]
  rfl

/-- The name with one more frame around it. -/
def within (f : Frame) (x : Content × List Frame) : Content × List Frame := (x.1, x.2 ++ [f])

/-- In a scope every name has the frame of the scope around it. -/
theorem occurrencesBefore_inScope (h : Steady s) (after : List Content) :
    occurrencesBefore after (inScope s) =
      (occurrences s).map (within ⟨declared s, passedTo (direct s.contents 0) after⟩) := by
  rw [← h.occurrences_eq (.leave :: after)]
  simp only [occurrencesBefore, contents_inScope, located, Content.framesAfter,
    h.balanced.located_append, List.append_assoc, List.singleton_append, h.balanced.opening_eq]
  rw [h.balanced.located_eq_map]
  simp [Content.isName, List.filter_map, Function.comp_def, declared, within]

theorem balanced_inScope (h : Steady s) : Balanced (contents (inScope s)) := by
  rw [contents_inScope]
  exact .scope h.balanced .nil

theorem head?_direct {cs : List Content} {text : String} (h : cs.head? = some (.code text)) :
    (direct cs 0).head? = some (.code text) := by
  cases cs with
  | nil => cases h
  | cons c cs =>
    cases h
    rfl

/-- A scope that does not begin as a function to be called at once. -/
theorem occurrencesBefore_inScope_of_head (text : String) (h : Steady s)
    (hhead : s.contents.head? = some (.code text)) (htext : text ≠ "(function(")
    (after : List Content) :
    occurrencesBefore after (inScope s) = (occurrences s).map (within ⟨declared s, []⟩) := by
  have hpassed : passedTo (direct s.contents 0) after = [] := by
    rw [passedTo, head?_direct hhead, if_neg]
    rintro ⟨hfunction, -⟩
    cases hfunction
    exact htext rfl
  rw [occurrencesBefore_inScope h, hpassed]

theorem steady_inScope_of_head (text : String) (h : Steady s)
    (hhead : s.contents.head? = some (.code text)) (htext : text ≠ "(function(") :
    Steady (inScope s) := by
  refine ⟨balanced_inScope h, fun after => ?_⟩
  rw [occurrences, occurrencesBefore_inScope_of_head text h hhead htext,
    occurrencesBefore_inScope_of_head text h hhead htext]

theorem occurrences_inScope_of_head (text : String) (h : Steady s)
    (hhead : s.contents.head? = some (.code text)) (htext : text ≠ "(function(") :
    occurrences (inScope s) = (occurrences s).map (within ⟨declared s, []⟩) :=
  occurrencesBefore_inScope_of_head text h hhead htext []

/-- A scope that is not followed by arguments. -/
theorem occurrencesBefore_inScope_append {s' : Script} (text : String) (h : Steady s)
    (h' : Steady s') (hhead : s'.contents.head? = some (.code text)) (htext : text ≠ "(")
    (after : List Content) :
    occurrencesBefore after (inScope s ++ s') =
      (occurrences s).map (within ⟨declared s, []⟩) ++ occurrences s' := by
  have hpassed : passedTo (direct s.contents 0) (s'.contents ++ after) = [] := by
    rw [passedTo, List.head?_append, hhead, if_neg]
    rintro ⟨-, hcall⟩
    cases hcall
    exact htext rfl
  rw [occurrencesBefore_append (balanced_inScope h), occurrencesBefore_inScope h, hpassed,
    h'.occurrences_eq]

theorem steady_inScope_append {s' : Script} (text : String) (h : Steady s)
    (h' : Steady s') (hhead : s'.contents.head? = some (.code text)) (htext : text ≠ "(") :
    Steady (inScope s ++ s') := by
  refine ⟨?_, fun after => ?_⟩
  · rw [contents_append]
    exact (balanced_inScope h).append h'.balanced
  · rw [occurrences, occurrencesBefore_inScope_append text h h' hhead htext,
      occurrencesBefore_inScope_append text h h' hhead htext]

theorem occurrences_inScope_append {s' : Script} (text : String) (h : Steady s)
    (h' : Steady s') (hhead : s'.contents.head? = some (.code text)) (htext : text ≠ "(") :
    occurrences (inScope s ++ s') =
      (occurrences s).map (within ⟨declared s, []⟩) ++ occurrences s' :=
  occurrencesBefore_inScope_append text h h' hhead htext []

end Occurrences

end Easel.Script
