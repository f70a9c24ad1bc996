import Easel.Proofs.Script.Patterns
import Easel.Proofs.Script.Quiet
import Mathlib.Data.List.Nodup
import Mathlib.Data.List.Perm.Subperm
import Mathlib.Data.Nat.Find

/-!
# The functions of scenes and animations

Every scene and every `animate` block is written as a function, and the functions get their names in
turn: each the first one of its series (`scene_a`, `scene_a2`, `scene_a3`, ..) that none before it
has.  So the names are pairwise different.  They are not kept apart from the names that a program
declares: a name of a series of the program's blocks may be one of them (`functionNames_script`).
-/

namespace Easel

/-! ## Names in turn -/

/-- A part of a program that is written as a function. -/
inductive Block where
  | scene (name : String)
  | animation
  deriving DecidableEq, Repr

/-- A name, and behind it the numbers from two on. -/
def numbered (base : String) : Nat → String
  | 0 => base
  | k + 1 => base ++ toString (k + 2)

/-- The names that the function of a block may have, in order. -/
def Block.series : Block → Nat → String
  | .scene name => numbered ("scene_" ++ name)
  | .animation => numbered "animate"

/-- The first name of a series that is not taken; before it come at most as many names as are
taken. -/
def FirstFree (taken : List String) (series : Nat → String) (name : String) : Prop :=
  ∃ k ≤ taken.length, name = series k ∧ ∀ j ≤ k, (series j ∈ taken ↔ j < k)

/-- Each block has the first name of its series that is neither in `given` nor a name of a block
before it. -/
inductive NamedInTurn : List String → List Block → List String → Prop
  | nil {given : List String} : NamedInTurn given [] []
  | cons {given names : List String} {b : Block} {bs : List Block} {name : String}
      (h : FirstFree given b.series name) (hrest : NamedInTurn (given ++ [name]) bs names) :
      NamedInTurn given (b :: bs) (name :: names)

section Series

variable {base : String} {taken given names : List String} {j k : Nat}

theorem numbered_injective (h : numbered base j = numbered base k) : j = k := by
  have hread (m : Nat) : Nat.ofDigitChars 10 (toString m).toList 0 = m := by
    rw [Nat.toString_eq_ofList_toDigits, String.toList_ofList, Nat.ofDigitChars_ten_toDigits]
  have hnumber (m : Nat) : toString (m + 2) ≠ "" := by
    intro hempty
    have hzero := hread (m + 2)
    rw [hempty] at hzero
    cases hzero
  cases j with
  | zero =>
    cases k with
    | zero => rfl
    | succ k => exact absurd (String.append_eq_left_iff.1 h.symm) (hnumber k)
  | succ j =>
    cases k with
    | zero => exact absurd (String.append_eq_left_iff.1 h) (hnumber j)
    | succ k =>
      have htext : toString (j + 2) = toString (k + 2) := (String.append_right_inj base).1 h
      have hvalue := hread (j + 2)
      rw [htext, hread] at hvalue
      omega

/-- A number of names of a series takes as many places. -/
theorem le_length_of_numbered_mem (h : ∀ j < k, numbered base j ∈ taken) : k ≤ taken.length := by
  have hnodup : ((List.range k).map (numbered base)).Nodup :=
    List.Nodup.map (fun _ _ => numbered_injective) List.nodup_range
  have hsubset : (List.range k).map (numbered base) ⊆ taken := by
    intro name hname
    obtain ⟨j, hj, rfl⟩ := List.mem_map.1 hname
    exact h j (List.mem_range.1 hj)
  simpa using (List.subperm_of_subset hnodup hsubset).length_le

/-- Some name of a series is free. -/
theorem exists_firstFree (base : String) (taken : List String) :
    ∃ k ≤ taken.length, ∀ j ≤ k, (numbered base j ∈ taken ↔ j < k) := by
  have hfree : ∃ k, numbered base k ∉ taken := by
    by_contra hall
    push Not at hall
    have hle := le_length_of_numbered_mem (k := taken.length + 1) fun j _ => hall j
    omega
  have hmin (j : Nat) (hj : j < Nat.find hfree) : numbered base j ∈ taken :=
    not_not.1 (Nat.find_min hfree hj)
  refine ⟨Nat.find hfree, le_length_of_numbered_mem hmin, fun j hj => ⟨fun hmem => ?_, hmin j⟩⟩
  refine lt_of_le_of_ne hj ?_
  rintro rfl
  exact Nat.find_spec hfree hmem

theorem FirstFree.not_mem {series : Nat → String} {name : String}
    (h : FirstFree taken series name) : name ∉ taken := by
  obtain ⟨k, -, rfl, hk⟩ := h
  exact fun hmem => lt_irrefl k ((hk k le_rfl).1 hmem)

/-- Names that are given in turn differ from one another and from those given before. -/
theorem NamedInTurn.nodup {bs : List Block} (h : NamedInTurn given bs names) :
    names.Nodup ∧ ∀ name ∈ names, name ∉ given := by
  induction h with
  | nil => exact ⟨List.nodup_nil, List.forall_mem_nil _⟩
  | @cons given names b bs name hfree _ ih =>
    obtain ⟨hnodup, hgiven⟩ := ih
    have hsplit : ∀ m ∈ names, m ∉ given ∧ m ≠ name := fun m hm => by
      simpa using hgiven m hm
    exact ⟨List.nodup_cons.2 ⟨fun hmem => (hsplit name hmem).2 rfl, hnodup⟩,
      List.forall_mem_cons.2 ⟨hfree.not_mem, fun m hm => (hsplit m hm).1⟩⟩

/-- A name belongs to the series of a block, and its number is below the number of blocks. -/
theorem NamedInTurn.exists_series {bs : List Block} (h : NamedInTurn given bs names) {name : String}
    (hname : name ∈ names) :
    ∃ b ∈ bs, ∃ k < given.length + bs.length, name = b.series k := by
  induction h with
  | nil => cases hname
  | @cons given names b bs first hfree _ ih =>
    rcases List.mem_cons.1 hname with rfl | hname
    · obtain ⟨k, hle, rfl, -⟩ := hfree
      have hlt : k < given.length + (b :: bs).length := by
        rw [List.length_cons]
        omega
      exact ⟨b, List.mem_cons_self, k, hlt, rfl⟩
    · obtain ⟨b', hb', k, hk, rfl⟩ := ih hname
      have hlt : k < given.length + (b :: bs).length := by
        rw [List.length_append, List.length_singleton] at hk
        rw [List.length_cons]
        omega
      exact ⟨b', List.mem_cons_of_mem b hb', k, hlt, rfl⟩

/-- The first name of every series is given. -/
theorem NamedInTurn.series_zero_mem {bs : List Block} (h : NamedInTurn given bs names) {b : Block}
    (hb : b ∈ bs) : b.series 0 ∈ given ++ names := by
  induction h with
  | nil => cases hb
  | @cons given names b' bs name hfree _ ih =>
    rcases List.mem_cons.1 hb with rfl | hb
    · obtain ⟨_ | k, -, rfl, hk⟩ := hfree
      · exact List.mem_append_right _ List.mem_cons_self
      · exact List.mem_append_left _ ((hk 0 (Nat.zero_le _)).2 (Nat.succ_pos k))
    · rw [List.append_cons]
      exact ih hb

end Series

/-! ## The names that are given out -/

namespace Script.Names

/-- The name that the function of a block gets. -/
def next (names : Names) : Block → String
  | .scene name => names.sceneName name
  | .animation => names.animationName

/-- The names that are given out after that of a block. -/
def after (names : Names) : Block → Names
  | .scene name => names.withScene name
  | .animation => { names with animations := names.animations + 1 }

/-- The names that the functions of blocks get in turn. -/
def nextAll (names : Names) : List Block → List String
  | [] => []
  | b :: bs => names.next b :: (names.after b).nextAll bs

/-- The names that are given out after those of blocks. -/
def afterAll (names : Names) (bs : List Block) : Names := bs.foldl after names

theorem nextAll_append (names : Names) (bs bs' : List Block) :
    names.nextAll (bs ++ bs') = names.nextAll bs ++ (names.afterAll bs).nextAll bs' := by
  induction bs generalizing names with
  | nil => rfl
  | cons b bs ih =>
    rw [List.cons_append, nextAll, ih, nextAll, List.cons_append, afterAll, afterAll,
      List.foldl_cons]

theorem afterAll_append (names : Names) (bs bs' : List Block) :
    names.afterAll (bs ++ bs') = (names.afterAll bs).afterAll bs' := List.foldl_append

/-- The search for the name of a scene ends at the first one that is free. -/
theorem firstFree_sceneName (names : Names) (scene : String) :
    FirstFree names.scenes (numbered ("scene_" ++ scene)) (names.sceneName scene) := by
  obtain ⟨k, hlength, hk⟩ := exists_firstFree ("scene_" ++ scene) names.scenes
  refine ⟨k, hlength, ?_, hk⟩
  cases k with
  | zero =>
    have hbase : "scene_" ++ scene ∉ names.scenes :=
      fun hmem => Nat.not_lt_zero 0 ((hk 0 le_rfl).1 hmem)
    unfold sceneName
    simp [hbase, numbered]
  | succ k =>
    have hbase : "scene_" ++ scene ∈ names.scenes := (hk 0 (Nat.zero_le _)).2 (Nat.succ_pos k)
    have hfind : (List.range names.scenes.length).find? (fun i =>
        !names.scenes.contains (numbered ("scene_" ++ scene) (i + 1))) = some k := by
      refine List.find?_range_eq_some.2 ⟨?_, List.mem_range.2 hlength, fun j hj => ?_⟩
      · have hfree := mt (hk (k + 1) le_rfl).1 (lt_irrefl _)
        simpa using hfree
      · have htaken := (hk (j + 1) (by omega)).2 (by omega)
        simpa using htaken
    have hnumbered : (List.range' 2 names.scenes.length).map
        (fun n => "scene_" ++ scene ++ toString n) =
        (List.range names.scenes.length).map fun i => numbered ("scene_" ++ scene) (i + 1) := by
      rw [List.range'_eq_map_range, List.map_map]
      exact List.map_congr_left fun i _ => by rw [Function.comp_apply, Nat.add_comm, numbered]
    unfold sceneName
    simp only [List.contains_iff_mem.2 hbase, if_true, hnumbered, List.find?_map, Function.comp_def,
      hfind, Option.map_some, Option.getD_some]

theorem animationName_eq_numbered (names : Names) :
    names.animationName = numbered "animate" names.animations := by
  obtain ⟨_ | n, scenes⟩ := names <;> rfl

/-- The names that were given out are those of `given`. -/
structure Records (names : Names) (given : List String) : Prop where
  scenes : ∀ scene k, numbered ("scene_" ++ scene) k ∈ given ↔
    numbered ("scene_" ++ scene) k ∈ names.scenes
  animations : ∀ k, numbered "animate" k ∈ given ↔ k < names.animations

variable {names : Names} {given : List String}

theorem Records.firstFree (h : names.Records given) (b : Block) :
    FirstFree given b.series (names.next b) := by
  cases b with
  | scene scene =>
    obtain ⟨k, -, hname, hk⟩ := names.firstFree_sceneName scene
    have htaken (j : Nat) (hj : j ≤ k) : numbered ("scene_" ++ scene) j ∈ given ↔ j < k :=
      (h.scenes scene j).trans (hk j hj)
    exact ⟨k, le_length_of_numbered_mem fun j hj => (htaken j hj.le).2 hj, hname, htaken⟩
  | animation =>
    exact ⟨names.animations, le_length_of_numbered_mem fun j hj => (h.animations j).2 hj,
      names.animationName_eq_numbered, fun j _ => h.animations j⟩

theorem numbered_scene_ne (scene : String) (j k : Nat) :
    numbered ("scene_" ++ scene) j ≠ numbered "animate" k := by
  have hstart (base : String) (k : Nat) : ∃ rest, numbered base k = base ++ rest := by
    cases k with
    | zero => exact ⟨"", String.append_empty.symm⟩
    | succ k => exact ⟨_, rfl⟩
  intro heq
  obtain ⟨rest, hscene⟩ := hstart ("scene_" ++ scene) j
  obtain ⟨rest', hanimate⟩ := hstart "animate" k
  rw [hscene, hanimate] at heq
  simpa using congrArg (fun name : String => name.toList.head?) heq

theorem Records.after (h : names.Records given) (b : Block) :
    (names.after b).Records (given ++ [names.next b]) := by
  cases b with
  | scene scene =>
    obtain ⟨k, -, hname, -⟩ := names.firstFree_sceneName scene
    constructor
    · intro scene' j
      simp [next, Names.after, withScene, h.scenes, or_comm]
    · intro j
      have hne := (numbered_scene_ne scene k j).symm
      simp [next, Names.after, withScene, h.animations, hname, hne]
  | animation =>
    constructor
    · intro scene j
      have hne := numbered_scene_ne scene j names.animations
      simp [next, Names.after, animationName_eq_numbered, h.scenes, hne]
    · intro j
      have heq : numbered "animate" j = numbered "animate" names.animations ↔
          j = names.animations := ⟨numbered_injective, fun h => h ▸ rfl⟩
      rw [List.mem_append, List.mem_singleton, h.animations, next, animationName_eq_numbered, heq]
      exact Nat.lt_succ_iff_lt_or_eq.symm

theorem Records.namedInTurn (h : names.Records given) (bs : List Block) :
    NamedInTurn given bs (names.nextAll bs) := by
  induction bs generalizing names given with
  | nil => exact .nil
  | cons b bs ih => exact .cons (h.firstFree b) (ih (h.after b))

theorem records_nil : Records {} [] := ⟨by simp, by simp⟩

end Script.Names

/-! ## The functions in a script -/

namespace Script

/-- The name of the function that a piece of a script begins to write, if a construct chose it. -/
def Content.functionName? (c : Content) (rest : List Content) : Option String :=
  match rest.head? with
  | some (.bind name .pattern) => if c = .code "function " then some name else none
  | _ => none

/-- The names of the functions that constructs write, in order. -/
def functionNamesIn : List Content → List String
  | [] => []
  | c :: rest => (c.functionName? rest).toList ++ functionNamesIn rest

/-- The names of the functions that constructs write in a script, in order. -/
def functionNames (s : Script) : List String := functionNamesIn s.contents

/-- The script writes functions with these names, whatever follows it. -/
def Writes (ns : List String) (s : Script) : Prop :=
  ∀ rest, functionNamesIn (s.contents ++ rest) = ns ++ functionNamesIn rest

/-- The script writes no function of a construct. -/
abbrev Silent (s : Script) : Prop := Writes [] s

section Writes

variable {ns ns' : List String} {s s' : Script} {ss : List Script}

theorem Writes.functionNames_eq (h : Writes ns s) : functionNames s = ns := by
  have hnames := h []
  rwa [List.append_nil, functionNamesIn, List.append_nil] at hnames

theorem Writes.append (h : Writes ns s) (h' : Writes ns' s') : Writes (ns ++ ns') (s ++ s') := by
  intro rest
  rw [contents_append, List.append_assoc, h, h', List.append_assoc]

-- As with `steady_append_iff`, silent pieces are taken off from the left.
@[simp] theorem writes_append_iff (h : Silent s) : Writes ns (s ++ s') ↔ Writes ns s' := by
  simp only [Writes, contents_append, List.append_assoc, h _, List.nil_append]

theorem Writes.append_silent (h : Writes ns s) (h' : Silent s') : Writes ns (s ++ s') := by
  simpa using h.append h'

@[simp] theorem writes_indented : Writes ns (indented s) ↔ Writes ns s := by
  rw [Writes, contents_indented, Writes]

@[simp] theorem writes_comingFrom (p : Position) : Writes ns (comingFrom p s) ↔ Writes ns s := by
  rw [Writes, contents_comingFrom, Writes]

theorem functionNamesIn_cons {c : Content} (h : c ≠ .code "function ") (cs : List Content) :
    functionNamesIn (c :: cs) = functionNamesIn cs := by
  have hnone : c.functionName? cs = none := by
    unfold Content.functionName?
    split
    · exact if_neg h
    · rfl
  rw [functionNamesIn, hnone]
  rfl

theorem Writes.inScope (h : Writes ns s) : Writes ns (inScope s) := by
  intro rest
  rw [contents_inScope, List.cons_append, functionNamesIn_cons (by simp), List.append_assoc, h,
    List.singleton_append, functionNamesIn_cons (by simp)]

/-- A function whose name the construct chose. -/
theorem writes_function (name : String) :
    Writes [name] (code "function " ++ bind name .pattern) := by
  intro rest
  change functionNamesIn (.code "function " :: .bind name .pattern :: rest) = _
  rw [functionNamesIn, functionNamesIn_cons (by simp)]
  simp [Content.functionName?]

/-- A function whose name the program chose. -/
theorem silent_function (name : String) : Silent (code "function " ++ bind name .program) := by
  intro rest
  change functionNamesIn (.code "function " :: .bind name .program :: rest) = _
  rw [functionNamesIn, functionNamesIn_cons (by simp)]
  rfl

@[simp] theorem silent_nil : Silent [] := fun _ => rfl

@[simp] theorem silent_code {text : String} (h : text ≠ "function ") : Silent (code text) :=
  fun _ => functionNamesIn_cons (by simpa using h) _

@[simp] theorem silent_bind (name : String) (owner : Owner) : Silent (bind name owner) :=
  fun _ => functionNamesIn_cons (by simp) _

@[simp] theorem silent_lineEnd : Silent lineEnd := fun _ => functionNamesIn_cons (by simp) _

@[simp] theorem silent_line (text : String) : Silent (line text) := by
  intro rest
  change functionNamesIn (.code text :: .lineEnd :: rest) = _
  rw [functionNamesIn, functionNamesIn_cons (by simp)]
  rfl

@[simp] theorem silent_comment (text : String) : Silent (comment text) := fun _ => rfl

@[simp] theorem silent_between (h : Silent s) {opening closing : String}
    (ho : opening ≠ "function ") (hc : closing ≠ "function ") :
    Silent (between opening closing s) := by
  simp [between, h, ho, hc]

@[simp] theorem silent_commaSeparated (h : ∀ s ∈ ss, Silent s) : Silent (commaSeparated ss) :=
  commaSeparated_induction silent_nil (silent_code (by decide)) Writes.append h

/-- A script without the text that a function begins with. -/
theorem Quiet.silent (h : Quiet s) : Silent s := by
  induction s with
  | nil => exact silent_nil
  | cons i s ih =>
    obtain ⟨hi, hs⟩ := List.forall_mem_cons.1 h
    have hitem : Silent [i] := by
      intro rest
      cases hlayout : i.isLayout with
      | true => simp [contents, hlayout]
      | false =>
        have hcontents : contents [i] = [i.content] := by simp [contents, hlayout]
        rw [hcontents]
        exact functionNamesIn_cons hi.2 rest
    exact hitem.append (ih hs)

end Writes

end Script

open Script

/-! ## Expressions and commands -/

@[simp] theorem Expr.silent_script (e : Expr) (captured : List String) (nested : Bool) :
    Silent (e.script captured nested) :=
  (e.quiet_script captured nested).silent

theorem Binding.silent_script (b : Binding) : Silent b.script := by
  simp [script]

section Blocks

variable {ns : List String} {body : Script}

theorem Script.Writes.braced (h : Writes ns body) (close : String) :
    Writes ns (braced close body) :=
  (writes_indented.2 h).inScope.append_silent (silent_line close)

theorem Script.Writes.block (h : Writes ns body) : Writes ns (block body) := by
  rw [block_eq]
  simp [h.braced]

end Blocks

theorem Command.silent_scripts (cs : List Command) : Silent (cs.flatMap Command.script) := by
  induction cs with
  | nil => exact silent_nil
  | cons c cs ih => exact ((writes_comingFrom c.position).2 c.motion.quiet_script.silent).append ih

/-! ## Statements -/

mutual

/-- The blocks of a statement, in the order in which they stand. -/
def Stmt.blocks : Stmt → List Block
  | .scene _ name body => .scene name :: Stmt.blocksAll body
  | .animate _ _ => [.animation]
  | .function _ _ _ body | .ifThen _ _ body | .repeatLoop _ _ body | .whileLoop _ _ body
  | .forLoop _ _ _ _ body => Stmt.blocksAll body
  | .ifElse _ _ body alternative => Stmt.blocksAll body ++ Stmt.blocksAll alternative
  | .binding _ | .ret _ _ | .importFrom _ _ _ | .expr _ => []

/-- The blocks of statements. -/
def Stmt.blocksAll : List Stmt → List Block
  | [] => []
  | s :: rest => s.blocks ++ Stmt.blocksAll rest

end

/-- The script of a statement writes the functions of its blocks, with their names given in turn. -/
def Stmt.WritesBlocks (names : Names) (bs : List Block) (r : Names × Script) : Prop :=
  Writes (names.nextAll bs) r.2 ∧ r.1 = names.afterAll bs

mutual

theorem Stmt.writes_script (names : Names) :
    ∀ s : Stmt, Stmt.WritesBlocks names s.blocks (s.script names)
  | .binding b => ⟨by simp [Stmt.script, Binding.script, Stmt.blocks, Names.nextAll], rfl⟩
  | .function _ name params body => by
    obtain ⟨hbody, hnames⟩ := Stmt.writes_scripts names body
    refine ⟨?_, hnames⟩
    have hparts : Writes (names.nextAll (Stmt.blocksAll body))
        (functionParts params (Stmt.scripts names body).2) := by
      simp [functionParts, between, hbody.block]
    exact (silent_function name.name).append hparts.inScope
  | .ret _ none => ⟨silent_line _, rfl⟩
  | .ret _ (some value) | .expr value => ⟨by simp [Stmt.script, Stmt.blocks, Names.nextAll], rfl⟩
  | .ifThen _ cond body | .whileLoop _ cond body => by
    obtain ⟨hbody, hnames⟩ := Stmt.writes_scripts names body
    exact ⟨by simp [Stmt.script, Stmt.blocks, hbody.block], hnames⟩
  | .ifElse _ cond body alternative => by
    obtain ⟨hbody, hnames⟩ := Stmt.writes_scripts names body
    obtain ⟨halternative, hnames'⟩ := Stmt.writes_scripts (Stmt.scripts names body).1 alternative
    refine ⟨?_, ?_⟩
    · rw [Stmt.script_ifElse_eq, Stmt.blocks, Names.nextAll_append, ← hnames]
      simp [(hbody.braced _).append (halternative.braced _)]
    · rw [Stmt.blocks, Names.afterAll_append, ← hnames]
      exact hnames'
  | .repeatLoop _ times body => by
    obtain ⟨hbody, hnames⟩ := Stmt.writes_scripts names body
    exact ⟨Writes.inScope (by simp [Stmt.blocks, hbody.block]), hnames⟩
  | .forLoop _ init cond update body => by
    obtain ⟨hbody, hnames⟩ := Stmt.writes_scripts names body
    have hinit : Silent (Init.scriptOf init) := by
      rcases init with _ | b | e
      · exact silent_nil
      · exact b.silent_script
      · exact e.silent_script [] false
    have hupdate : Silent (Expr.scriptOf update) := by
      cases update with
      | none => exact silent_nil
      | some e => exact e.silent_script [] false
    have hparts : Writes (names.nextAll (Stmt.blocksAll body))
        (forParts init cond update (Stmt.scripts names body).2) := by
      simp [forParts, hinit, hupdate, hbody.block]
    exact ⟨hparts.inScope, hnames⟩
  | .importFrom _ ids path => by
    obtain ⟨text, heq⟩ := importComment_eq ids path
    exact ⟨by simp [Stmt.script, heq, Stmt.blocks, Names.nextAll], rfl⟩
  | .scene _ name body => by
    obtain ⟨hbody, hnames⟩ := Stmt.writes_scripts (names.withScene name) body
    have hfunction := (writes_function (names.sceneName name)).append
      (((silent_code (by decide : "()" ≠ "function ")).append hbody.block).append_silent
        (silent_line (names.sceneName name ++ "();")))
    refine ⟨?_, hnames⟩
    simpa [Stmt.script, Stmt.blocks, Names.nextAll, Names.next, Names.after, Names.withScene] using
      hfunction
  | .animate _ commands => by
    have hbody : Silent (animateBody names.animationName commands) := by
      simp [animateBody, Command.silent_scripts]
    have hrest : Silent (code r"() {" ++ (lineEnd ++ (braced r"}"
        (animateBody names.animationName commands) ++ line (names.animationName ++ "();")))) := by
      simp [hbody.braced]
    refine ⟨?_, rfl⟩
    rw [Stmt.script, animateScript_eq]
    have hfunction := (writes_function names.animationName).append_silent hrest
    simpa [Stmt.blocks, Names.nextAll, Names.next] using hfunction

theorem Stmt.writes_scripts (names : Names) :
    ∀ ss : List Stmt, Stmt.WritesBlocks names (Stmt.blocksAll ss) (Stmt.scripts names ss)
  | [] => ⟨silent_nil, rfl⟩
  | s :: ss => by
    obtain ⟨hs, hnames⟩ := Stmt.writes_script names s
    obtain ⟨hss, hnames'⟩ := Stmt.writes_scripts (s.script names).1 ss
    refine ⟨?_, ?_⟩
    · rw [Stmt.blocksAll, Names.nextAll_append, ← hnames]
      exact ((writes_comingFrom s.position).2 hs).append hss
    · rw [Stmt.blocksAll, Names.afterAll_append, ← hnames]
      exact hnames'

end

/-! ## Declared names -/

/-- A statement of the program declares the name: by a binding, as a function or as a parameter. -/
def Program.DeclaresName (p : Program) (n : String) : Prop :=
  ∃ s : Stmt, s.Within p ∧ n ∈ s.ownNames ++ s.headNames

section Declared

variable {T : Token → Prop} {Q : Expr → Prop}

theorem Stmt.From.bodies {s : Stmt} (h : s.From T Q) :
    ∀ body ∈ s.bodies, ∀ s' ∈ body, s'.From T Q := by
  cases h with
  | function _ _ _ hbody | ifThen _ _ hbody | repeatLoop _ _ hbody | whileLoop _ _ hbody
  | forLoop _ _ _ _ hbody | scene _ _ hbody => exact List.forall_mem_singleton.2 hbody
  | ifElse _ _ hbody halternative =>
    exact List.forall_mem_cons.2 ⟨hbody, List.forall_mem_singleton.2 halternative⟩
  | binding | ret | importFrom | animate | expr => exact List.forall_mem_nil _

theorem Stmt.Within.from {s : Stmt} {ss : List Stmt} (h : s.Within ss)
    (hss : ∀ s ∈ ss, s.From T Q) : s.From T Q := by
  induction h with
  | here h => exact hss s h
  | inner hs hbody _ ih => exact ih ((hss _ hs).bodies _ hbody)

theorem Stmt.From.isName {s : Stmt} (h : s.From Token.Genuine Q) :
    ∀ n ∈ s.ownNames ++ s.headNames, IsName n := by
  cases h with
  | binding h => exact List.forall_mem_singleton.2 h.name.isName
  | function _ hname hparams =>
    exact List.forall_mem_cons.2
      ⟨hname.isName, List.forall_mem_map.2 fun id hid => (hparams id hid).isName⟩
  | @forLoop _ init _ _ _ _ hinit =>
    rcases init with _ | b | e
    · exact List.forall_mem_nil _
    · cases hinit _ rfl with
      | binding h => exact List.forall_mem_singleton.2 h.name.isName
    · exact List.forall_mem_nil _
  | _ => exact List.forall_mem_nil _

/-- A reserved word is no name. -/
theorem not_isName_animate : ¬ IsName "animate" := by
  rintro ⟨rest, h⟩
  obtain ⟨c, cs, htext, -, -, hkind⟩ := h.word_of_kind rfl
  have htext : "animate".toList = c :: cs := htext
  rw [← htext] at hkind
  exact absurd hkind (by decide)

end Declared

theorem Script.silent_ofText (text : String) : Silent (ofText text) := by
  have hline (cs : List Char) : Silent (ofTextLine cs) := by
    unfold ofTextLine
    split
    · exact fun _ => rfl
    · dsimp only
      split
      · exact fun _ => rfl
      · exact silent_line _
  have hlines (lines : List (List Char)) : Silent (lines.flatMap ofTextLine) := by
    induction lines with
    | nil => exact silent_nil
    | cons cs lines ih => exact (hline cs).append ih
  exact hlines _

theorem Program.writes_script (style : Style) (p : Program) :
    Writes (Names.nextAll {} (Stmt.blocksAll p)) (p.script style) := by
  have hprelude := silent_ofText (preludeText (escapeQuotes style.canvasId) (tick style.fps))
  have hmain := (Stmt.writes_scripts {} p).1.braced r"})();"
  rw [Writes, p.contents_script style, ← Writes, prelude, writes_append_iff hprelude]
  simp [hmain]

/-- The functions of the scenes and animations of a program have their names in turn, each the first
one of its series that none before it has, so no two have the same name.  No search tries more names
than there are blocks.  Nothing keeps the names apart from those that the program declares: every
block's series gives out its first name, and only `animate` is a word that no program declares. -/
theorem functionNames_script (source : String) (style : Style) :
    let p := (Checkup.ofSource source).program
    let bs := Stmt.blocksAll p
    let names := functionNames (p.script style)
    NamedInTurn [] bs names ∧ names.Nodup ∧
      (∀ n ∈ names, ∃ b ∈ bs, ∃ k < bs.length, n = b.series k) ∧
      (∀ b ∈ bs, b.series 0 ∈ names) ∧ ¬ p.DeclaresName "animate" := by
  intro p bs names
  have hnames : NamedInTurn [] bs names := by
    rw [show names = _ from (p.writes_script style).functionNames_eq]
    exact Names.records_nil.namedInTurn bs
  refine ⟨hnames, hnames.nodup.1, fun n hn => ?_, fun b hb => ?_, ?_⟩
  · simpa using hnames.exists_series hn
  · simpa using hnames.series_zero_mem hb
  · rintro ⟨s, hs, hmem⟩
    have hfrom := hs.from (from_parse Expr.hereditary_named Token.genuine_beyond
      (Token.genuine_lex source))
    exact not_isName_animate (hfrom.isName _ hmem)

/-- A binding with the name of the function of a scene, in a source without faults. -/
theorem functionNames_script_scene :
    let source := "let scene_a = true\nscene a { }"
    let p := (Checkup.ofSource source).program
    check source = [] ∧ p.DeclaresName "scene_a" ∧ "scene_a" ∈ functionNames (p.script {}) := by
  intro source p
  have hp : p = [.binding ⟨⟨1, 1⟩, ⟨⟨1, 5⟩, "scene_a"⟩, .bool ⟨1, 15⟩ true⟩,
      .scene ⟨2, 1⟩ "a" []] := by
    dsimp only [p, source]
    eq_refl
  have hblocks : .scene "a" ∈ Stmt.blocksAll p := by
    rw [hp]
    exact List.mem_singleton_self _
  obtain ⟨-, -, -, hfirst, -⟩ := functionNames_script source {}
  refine ⟨by decide +kernel, ⟨_, .here (hp ▸ List.mem_cons_self), List.mem_singleton_self _⟩, ?_⟩
  exact hfirst (.scene "a") hblocks

end Easel
