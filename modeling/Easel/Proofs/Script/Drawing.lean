import Easel.Proofs.Script.Scopes

/-!
# Names in the patterns of scripts

The lists, constants and lines that constructs are written by have the names of what is put into
them: what a script is asked for is collected piece by piece (`Collects`).  Around a drawing
function this holds with one frame more: `occurrences_drawing`.
-/

namespace Easel.Script

/-! ## Lists -/

section Commas

variable {ss : List Script} {c : Content}

/-- What holds of the elements of a list, and of a comma, holds of the list. -/
theorem commaSeparated_induction {P : Script → Prop} (hnil : P []) (hcomma : P (code ", "))
    (happend : ∀ {s s'}, P s → P s' → P (s ++ s')) (h : ∀ s ∈ ss, P s) : P (commaSeparated ss) := by
  induction ss with
  | nil => exact hnil
  | cons s ss ih =>
    obtain ⟨hs, hss⟩ := List.forall_mem_cons.1 h
    cases ss with
    | nil => exact hs
    | cons s' ss => exact happend (happend hs hcomma) (ih hss)

theorem mem_contents_commaSeparated (h : c ∈ contents (commaSeparated ss)) :
    c = .code ", " ∨ ∃ s ∈ ss, c ∈ contents s := by
  refine commaSeparated_induction
    (P := fun t => ∀ c ∈ contents t, c = .code ", " ∨ ∃ s ∈ ss, c ∈ contents s)
    (List.forall_mem_nil _) (by simp) (fun {t t'} ht ht' => ?_)
    (fun s hs c hc => .inr ⟨s, hs, hc⟩) c h
  rw [contents_append]
  exact List.forall_mem_append.2 ⟨ht, ht'⟩

@[simp] theorem steady_commaSeparated (h : ∀ s ∈ ss, Steady s) : Steady (commaSeparated ss) :=
  commaSeparated_induction steady_nil (steady_code ", ") Steady.append h

end Commas

/-! ## What is collected from scripts -/

/-- The script does not end in a name that is read: nothing behind it makes a target of its end. -/
def Sealed (s : Script) : Prop := s.contents.getLast?.bind Content.spelling? = none

section Sealed

variable {s s' : Script}

@[simp] theorem sealed_nil : Sealed [] := rfl

@[simp] theorem sealed_code (text : String) : Sealed (code text) := rfl

@[simp] theorem sealed_bind (name : String) (owner : Owner) : Sealed (bind name owner) := rfl

@[simp] theorem sealed_append_code (s : Script) (text : String) : Sealed (s ++ code text) := by
  simp [Sealed, Content.spelling?]

@[simp] theorem sealed_append_lineEnd (s : Script) : Sealed (s ++ lineEnd) := by
  simp [Sealed, Content.spelling?]

@[simp] theorem sealed_append (h : Sealed s) (h' : Sealed s') : Sealed (s ++ s') := by
  unfold Sealed at h h' ⊢
  rw [contents_append, List.getLast?_append]
  cases hlast : s'.contents.getLast? with
  | none => exact h
  | some c => rwa [hlast] at h'

@[simp] theorem sealed_line (text : String) : Sealed (line text) := rfl

@[simp] theorem sealed_constant (name : String) (s : Script) (after : String) :
    Sealed (constant name s after) := sealed_append_lineEnd _

@[simp] theorem sealed_pathTo (step : String) (x y : Script) : Sealed (pathTo step x y) :=
  sealed_append_lineEnd _

@[simp] theorem sealed_codeLines (texts : List String) : Sealed (codeLines texts) := by
  induction texts with
  | nil => exact sealed_nil
  | cons text texts ih => exact sealed_append (sealed_line text) ih

@[simp] theorem sealed_polygonLoop : Sealed polygonLoop := rfl

end Sealed

/-- `F` collects something from scripts piece by piece, and nothing from code and line ends.  A sign
of assignment may change what it collects from a name right before. -/
structure Collects {α : Type} (F : Script → List α) : Prop where
  append {s s' : Script} (h : Steady s)
    (hjoin : Sealed s ∨ s'.contents.head? ≠ some (.code " = ")) : F (s ++ s') = F s ++ F s'
  code (text : String) : F (code text) = []
  lineEnd : F lineEnd = []

namespace Collects

variable {α : Type} {F : Script → List α} {s s' : Script} {ss : List Script}

theorem declared : Collects declared :=
  ⟨fun h _ => declared_append h _, declared_code, declared_lineEnd⟩

theorem occurrences : Collects occurrences :=
  ⟨fun h _ => occurrences_append h _, occurrences_code, occurrences_lineEnd⟩

theorem filterMap {f : Content → Option α} (hcode : ∀ text, f (.code text) = none)
    (hlineEnd : f .lineEnd = none) : Collects fun s => s.contents.filterMap f where
  append _ _ := by rw [contents_append, List.filterMap_append]
  code text := List.filterMap_cons_none (hcode text)
  lineEnd := List.filterMap_cons_none hlineEnd

theorem nil (hF : Collects F) : F [] = [] := by
  have happend : F ([] ++ []) = F [] ++ F [] := hF.append steady_nil (.inl sealed_nil)
  simpa using happend

theorem append_of_sealed (hF : Collects F) (h : Steady s) (hs : Sealed s) (s' : Script) :
    F (s ++ s') = F s ++ F s' :=
  hF.append h (.inl hs)

theorem append_of_head (hF : Collects F) (h : Steady s)
    (hs' : s'.contents.head? ≠ some (.code " = ")) : F (s ++ s') = F s ++ F s' :=
  hF.append h (.inr hs')

theorem append_code (hF : Collects F) (h : Steady s) {text : String} (ht : text ≠ " = ") :
    F (s ++ Script.code text) = F s := by
  rw [hF.append_of_head h (by simpa using ht), hF.code, List.append_nil]

theorem between (hF : Collects F) (h : Steady s) (opening : String) {closing : String}
    (hc : closing ≠ " = ") : F (between opening closing s) = F s := by
  rw [Script.between, hF.append_code ((steady_code opening).append h) hc,
    hF.append_of_sealed (steady_code opening) (sealed_code opening), hF.code, List.nil_append]

theorem line (hF : Collects F) (text : String) : F (line text) = [] := by
  rw [Script.line, hF.append_of_sealed (steady_code text) (sealed_code text), hF.code, hF.lineEnd,
    List.append_nil]

theorem commaSeparated (hF : Collects F) (h : ∀ s ∈ ss, Steady s) :
    F (commaSeparated ss) = ss.flatMap F := by
  induction ss with
  | nil => exact hF.nil
  | cons s ss ih =>
    obtain ⟨hs, hss⟩ := List.forall_mem_cons.1 h
    cases ss with
    | nil => simp [Script.commaSeparated]
    | cons s' ss =>
      rw [Script.commaSeparated, hF.append_of_sealed (hs.append (steady_code ", "))
        (sealed_append_code s ", "), hF.append_code hs (by decide), ih hss]
      · rfl
      · exact List.cons_ne_nil s' ss

theorem codeLines (hF : Collects F) (texts : List String) : F (codeLines texts) = [] := by
  induction texts with
  | nil => exact hF.nil
  | cons text texts ih =>
    rw [Script.codeLines, List.flatMap_cons, hF.append_of_sealed (steady_line text) rfl, hF.line]
    exact ih

end Collects

section Commas

variable {ss : List Script} (h : ∀ s ∈ ss, Steady s)
include h

@[simp] theorem declared_commaSeparated : declared (commaSeparated ss) = ss.flatMap declared :=
  Collects.declared.commaSeparated h

@[simp] theorem occurrences_commaSeparated :
    occurrences (commaSeparated ss) = ss.flatMap occurrences :=
  Collects.occurrences.commaSeparated h

end Commas

/-! ## Constants and lines -/

section Constants

variable {s x y : Script}

@[simp] theorem steady_between (h : Steady s) (opening closing : String) :
    Steady (between opening closing s) := by
  simp [between, h]

@[simp] theorem declared_between (h : Steady s) (opening closing : String) :
    declared (between opening closing s) = declared s := by
  simp [between, h]

@[simp] theorem occurrences_between (h : Steady s) (opening closing : String) :
    occurrences (between opening closing s) = occurrences s := by
  simp [between, h]

@[simp] theorem steady_constant (h : Steady s) (name after : String) :
    Steady (constant name s after) := by
  simp [constant, h]

@[simp] theorem declared_constant (h : Steady s) (name after : String) :
    declared (constant name s after) = (name, .pattern) :: declared s := by
  simp [constant, h]

@[simp] theorem occurrences_constant (h : Steady s) (name after : String) :
    occurrences (constant name s after) = occurrences s := by
  simp [constant, h]

@[simp] theorem steady_pathTo (hx : Steady x) (hy : Steady y) (step : String) :
    Steady (pathTo step x y) := by
  simp [pathTo, hx, hy]

@[simp] theorem declared_pathTo (hx : Steady x) (hy : Steady y) (step : String) :
    declared (pathTo step x y) = declared x ++ declared y := by
  simp [pathTo, hx, hy]

@[simp] theorem steady_codeLines (texts : List String) : Steady (codeLines texts) := by
  induction texts with
  | nil => exact steady_nil
  | cons text texts ih => exact (steady_line text).append ih

@[simp] theorem declared_codeLines (texts : List String) : declared (codeLines texts) = [] :=
  Collects.declared.codeLines texts

@[simp] theorem occurrences_codeLines (texts : List String) :
    occurrences (codeLines texts) = [] :=
  Collects.occurrences.codeLines texts

end Constants

/-! ## The corners of a polygon -/

/-- The constants of a corner, in a scope of their own. -/
def cornerBlock : Script :=
  inScope (indented
    (constant "angle" (code "(i * TWO_PI / sides) + (rotation || 0)") ";" ++
      constant "px" (code "x + Math.cos(angle) * radius") ";" ++
      constant "py" (code "y + Math.sin(angle) * radius") ";" ++
      codeLines ["if (i === 0) ctx.moveTo(px, py);", "else ctx.lineTo(px, py);"]))

@[simp] theorem steady_cornerBlock : Steady cornerBlock :=
  steady_inScope_of_head "const " (by simp) rfl (by decide)

theorem occurrences_cornerBlock : occurrences cornerBlock = [] := by
  rw [cornerBlock, occurrences_inScope_of_head "const " (by simp) rfl (by decide)]
  simp

theorem polygonLoop_eq :
    polygonLoop = inScope (code "for (let " ++ bind "i" .pattern ++
      code r" = 0; i < sides; i++) {" ++ lineEnd ++ cornerBlock ++ line r"}") := rfl

@[simp] theorem steady_polygonLoop : Steady polygonLoop := by
  rw [polygonLoop_eq]
  exact steady_inScope_of_head "for (let " (by simp) rfl (by decide)

@[simp] theorem declared_polygonLoop : declared polygonLoop = [] := by
  rw [polygonLoop_eq, declared_inScope (by simp)]

@[simp] theorem occurrences_polygonLoop : occurrences polygonLoop = [] := by
  rw [polygonLoop_eq, occurrences_inScope_of_head "for (let "
    (by simp) rfl (by decide)]
  simp [steady_cornerBlock, occurrences_cornerBlock]

/-! ## Drawing functions -/

section Drawing

variable {body : Script} (outer names : List String)

/-- A drawing function without its scope. -/
def drawingFunction (names : List String) (body : Script) : Script :=
  code "(function(" ++ commaSeparated (names.map fun n => bind (captureName n) .pattern) ++
    code r") {" ++ lineEnd ++ indented (line "ctx.save();" ++ body ++ line "ctx.restore();") ++
    code r"})"

/-- The arguments of a drawing function. -/
def drawingArguments (outer names : List String) : Script :=
  between "(" ")" (commaSeparated (names.map (reading outer)))

theorem drawing_eq (body : Script) :
    drawing outer names body =
      inScope (drawingFunction names body) ++ drawingArguments outer names := rfl

theorem steady_drawingFunction (h : Steady body) : Steady (drawingFunction names body) := by
  simp [drawingFunction, h]

theorem declared_drawingFunction (h : Steady body) :
    declared (drawingFunction names body) =
      names.map (fun n => (captureName n, .pattern)) ++ declared body := by
  simp [drawingFunction, h, List.flatMap_map, ← List.map_eq_flatMap]

theorem occurrences_drawingFunction (h : Steady body) :
    occurrences (drawingFunction names body) = occurrences body := by
  simp [drawingFunction, h, List.flatMap_map]

theorem steady_drawingArguments : Steady (drawingArguments outer names) := by
  simp [drawingArguments, reading]

theorem declared_drawingArguments : declared (drawingArguments outer names) = [] := by
  simp [drawingArguments, reading, List.flatMap_map]

theorem occurrences_drawingArguments :
    occurrences (drawingArguments outer names) =
      names.map fun n => (.use n (spell outer n), []) := by
  simp [drawingArguments, reading, List.flatMap_map, ← List.map_eq_flatMap]

/-- The first line of a drawing function declares the parameters. -/
theorem parameters_drawingFunction :
    (((direct (drawingFunction names body).contents 0).takeWhile (· ≠ .lineEnd)).filterMap
      fun c => c.declared?.map Prod.fst) = names.map captureName := by
  let head := code "(function(" ++
    commaSeparated (names.map fun n => bind (captureName n) .pattern) ++ code r") {"
  have hhead : ∀ c ∈ contents head, c ≠ .enter ∧ c ≠ .leave ∧ c ≠ .lineEnd := by
    intro c hc
    simp only [head, contents_append, contents_code, List.mem_append, List.mem_singleton] at hc
    rcases hc with (rfl | hc) | rfl
    · simp
    · rcases mem_contents_commaSeparated hc with rfl | ⟨s, hs, hc⟩
      · simp
      · obtain ⟨n, -, rfl⟩ := List.mem_map.1 hs
        rw [contents_bind, List.mem_singleton] at hc
        simp [hc]
    · simp
  have hplain : ∀ c ∈ contents head, c ≠ .enter ∧ c ≠ .leave := fun c hc =>
    ⟨(hhead c hc).1, (hhead c hc).2.1⟩
  have hcontents : (drawingFunction names body).contents = contents head ++ .lineEnd ::
      contents (indented (line "ctx.save();" ++ body ++ line "ctx.restore();") ++ code r"})") := by
    simp [drawingFunction, head]
  rw [hcontents, ((balanced_of_forall_ne hplain).direct_append _).1, direct_of_forall_ne hplain,
    direct_cons_zero (by simp) (by simp),
    List.takeWhile_append_of_pos fun c hc => by simpa using (hhead c hc).2.2,
    List.takeWhile_cons_of_neg (by simp), List.append_nil]
  have hparameters := Collects.filterMap (f := fun c => c.declared?.map Prod.fst) (fun _ => rfl) rfl
  simp only [head, contents_append, List.filterMap_append]
  rw [hparameters.commaSeparated (by simp), List.flatMap_map, List.map_eq_flatMap]
  simp [Content.declared?]

theorem spellings_drawingArguments (after : List Content) :
    ((((drawingArguments outer names).contents ++ after).takeWhile (· ≠ .code ")")).filterMap
      Content.spelling?) = names.map (spell outer) := by
  let args := code "(" ++ commaSeparated (names.map (reading outer))
  have hargs : ∀ c ∈ contents args, c ≠ .code ")" := by
    intro c hc
    simp only [args, contents_append, contents_code, List.mem_append, List.mem_singleton] at hc
    rcases hc with rfl | hc
    · decide
    · rcases mem_contents_commaSeparated hc with rfl | ⟨s, hs, hc⟩
      · decide
      · obtain ⟨n, -, rfl⟩ := List.mem_map.1 hs
        rw [reading, contents_use, List.mem_singleton] at hc
        simp [hc]
  have hcontents : (drawingArguments outer names).contents ++ after =
      contents args ++ .code ")" :: after := by
    simp [drawingArguments, between, args]
  rw [hcontents, List.takeWhile_append_of_pos fun c hc => by simpa using hargs c hc,
    List.takeWhile_cons_of_neg (by simp), List.append_nil, contents_append, List.filterMap_append,
    (Collects.filterMap (fun _ => rfl) rfl).commaSeparated (by simp [reading]), List.flatMap_map]
  exact List.map_eq_flatMap.symm

/-- The frame of a drawing function. -/
def drawingFrame (outer names : List String) (body : Script) : Frame where
  declared := names.map (fun n => (captureName n, .pattern)) ++ body.declared
  passed := names.map fun n => (captureName n, spell outer n)

theorem occurrencesBefore_drawing (h : Steady body) (after : List Content) :
    occurrencesBefore after (drawing outer names body) =
      (occurrences body).map (within (drawingFrame outer names body)) ++
        names.map fun n => (.use n (spell outer n), []) := by
  have hfunction := steady_drawingFunction names h
  have hpassed : passedTo (direct (drawingFunction names body).contents 0)
      ((drawingArguments outer names).contents ++ after) =
        names.map fun n => (captureName n, spell outer n) := by
    rw [passedTo, if_pos ⟨by rfl, by rfl⟩, parameters_drawingFunction, spellings_drawingArguments,
      List.zip_map']
  rw [drawing_eq, occurrencesBefore_append (balanced_inScope hfunction),
    occurrencesBefore_inScope hfunction, hpassed, declared_drawingFunction names h,
    occurrences_drawingFunction names h, (steady_drawingArguments outer names).occurrences_eq,
    occurrences_drawingArguments]
  rfl

@[simp] theorem steady_drawing (h : Steady body) : Steady (drawing outer names body) := by
  refine ⟨?_, fun after => ?_⟩
  · rw [drawing_eq, contents_append]
    exact (balanced_inScope (steady_drawingFunction names h)).append
      (steady_drawingArguments outer names).balanced
  · rw [occurrences, occurrencesBefore_drawing outer names h,
      occurrencesBefore_drawing outer names h]

@[simp] theorem declared_drawing (h : Steady body) : declared (drawing outer names body) = [] := by
  have hscope := balanced_inScope (steady_drawingFunction names h)
  rw [drawing_eq, declared, contents_append, (hscope.direct_append _).1, List.filterMap_append]
  exact congrArg₂ (· ++ ·) (declared_inScope (steady_drawingFunction names h))
    (declared_drawingArguments outer names)

theorem occurrences_drawing (h : Steady body) :
    occurrences (drawing outer names body) =
      (occurrences body).map (within (drawingFrame outer names body)) ++
        names.map fun n => (.use n (spell outer n), []) :=
  occurrencesBefore_drawing outer names h []

end Drawing

end Easel.Script
