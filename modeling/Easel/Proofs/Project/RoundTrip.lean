import Easel.Project.Config
import Easel.Proofs.Json.RoundTrip

/-!
# Configurations read back

A color in canonical form is `#` and six upper-case digits, and it resolves to itself.  So a
configuration that a document gives is valid as it is.  Its texts are texts of characters and its
numbers fit into 64 bits, so it is read back from what is written of it; only an empty canvas id,
which is left out, becomes the default: `parse_print`.
-/

namespace Easel

/-! ## Colors -/

namespace Color

open Text

/-- The digits of canonical colors. -/
def upperDigits : List Char :=
  ['0', '1', '2', '3', '4', '5', '6', '7', '8', '9', 'A', 'B', 'C', 'D', 'E', 'F']

/-- The text is `#` and six upper-case digits. -/
def IsCanonical (s : String) : Prop :=
  ∃ ds : List Char, s = String.ofList ('#' :: ds) ∧ ds.length = 6 ∧ ∀ d ∈ ds, d ∈ upperDigits

theorem toUpper_mem_of_isHex {c : Char} (hc : isHex c = true) : c.toUpper ∈ upperDigits := by
  have hall : ∀ n < 128, isHex (Char.ofNat n) = true → (Char.ofNat n).toUpper ∈ upperDigits := by
    decide +kernel
  obtain ⟨n, hn⟩ := Option.isSome_iff_exists.1 hc
  have hchar := hall c.toNat (toNat_lt_of_hexValue? hn)
  rw [Char.ofNat_toNat] at hchar
  exact hchar hc

theorem toUpper_hexDigit_mem (n : Nat) : (hexDigit (n % 16)).toUpper ∈ upperDigits := by
  have hall : ∀ n < 16, (hexDigit n).toUpper ∈ upperDigits := by decide +kernel
  exact hall _ (Nat.mod_lt n (by decide))

/-- What holds of every digit of a canonical color. -/
theorem of_mem_upperDigits {d : Char} (hd : d ∈ upperDigits) :
    isHex d = true ∧ d.toUpper = d ∧ isBlank d = false := by
  have hall : upperDigits.all (fun d => isHex d && d.toUpper == d && !isBlank d) = true := by
    decide +kernel
  simpa [and_assoc] using List.all_eq_true.1 hall d hd

theorem isCanonical_ofNumber (n : Nat) : IsCanonical (ofNumber n) := by
  have hdigits (width n : Nat) : (hexDigits width n).length = width ∧
      ∀ d ∈ (hexDigits width n).map Char.toUpper, d ∈ upperDigits := by
    induction width generalizing n with
    | zero => exact ⟨rfl, fun d hd => absurd hd List.not_mem_nil⟩
    | succ width ih =>
      obtain ⟨hlength, hmem⟩ := ih (n / 16)
      refine ⟨by rw [hexDigits, List.length_append, hlength]; rfl, ?_⟩
      rw [hexDigits, List.map_append, List.forall_mem_append]
      exact ⟨hmem, fun d hd => List.mem_singleton.1 hd ▸ toUpper_hexDigit_mem n⟩
  refine ⟨_, rfl, ?_, (hdigits 6 n).2⟩
  rw [List.length_map, (hdigits 6 n).1]

theorem isCanonical_ofDigits {ds : List Char} {s : String} (hs : ofDigits ds = some s) :
    IsCanonical s := by
  unfold ofDigits at hs
  split at hs
  · next hall =>
    have hupper : ∀ d ∈ ds, d.toUpper ∈ upperDigits := fun d hd =>
      toUpper_mem_of_isHex (List.all_eq_true.1 hall d hd)
    split at hs
    · next hlength =>
      cases hs
      refine ⟨_, rfl, by rw [List.length_map, hlength], fun d hd => ?_⟩
      obtain ⟨d', hd', rfl⟩ := List.mem_map.1 hd
      exact hupper d' hd'
    · split at hs
      · next hlength =>
        cases hs
        refine ⟨_, rfl, ?_, fun d hd => ?_⟩
        · obtain ⟨x, y, z, rfl⟩ := List.length_eq_three.1 hlength
          rfl
        · obtain ⟨d', hd', hd⟩ := List.mem_flatMap.1 hd
          have hd : d = d'.toUpper := by simpa using hd
          exact hd ▸ hupper d' hd'
      · cases hs
  · cases hs

/-- A color resolves to its canonical form. -/
theorem isCanonical_of_resolve {s : RawText} {color : String} (h : resolve s = .ok color) :
    IsCanonical color := by
  unfold resolve at h
  split at h
  · next c hc =>
    cases h
    unfold ofTrimmed at hc
    split at hc
    · cases hc
      have hzero : '0' ∈ upperDigits := by decide
      refine ⟨List.replicate 6 '0', by decide, rfl, fun d hd => ?_⟩
      exact List.eq_of_mem_replicate hd ▸ hzero
    · exact isCanonical_ofDigits hc
    · obtain ⟨n, -, rfl⟩ := Option.map_eq_some_iff.1 hc
      exact isCanonical_ofNumber n
  · cases h

/-- A canonical color resolves to itself. -/
theorem resolve_of_isCanonical {color : String} (h : IsCanonical color) :
    resolve color = .ok color := by
  obtain ⟨ds, rfl, hlength, hds⟩ := h
  have htrim : (RawText.ofString (String.ofList ('#' :: ds))).trim =
      RawText.ofString (String.ofList ('#' :: ds)) := by
    refine RawText.trim_of_not_blank fun g hg => ?_
    rw [RawText.ofString, String.toList_ofList] at hg
    obtain ⟨d, hd, rfl⟩ := List.mem_map.1 hg
    rcases List.mem_cons.1 hd with rfl | hd
    · rfl
    · exact (of_mem_upperDigits (hds d hd)).2.2
  have hall : ds.all isHex = true :=
    List.all_eq_true.2 fun d hd => (of_mem_upperDigits (hds d hd)).1
  have hupper : ds.map Char.toUpper = ds := by
    rw [List.map_congr_left fun d hd => (of_mem_upperDigits (hds d hd)).2.1, List.map_id']
  have hdigits : ofTrimmed ('#' :: ds) = some (String.ofList ('#' :: ds)) := by
    rw [ofTrimmed, ofDigits, if_pos hall, if_pos hlength, hupper]
  rw [resolve, htrim, RawText.text_ofString, String.toList_ofList, hdigits]

end Color

/-! ## Valid configurations -/

namespace Config

open Json RawText

variable {c c' : Config}

/-- The configuration is valid, with its background in canonical form. -/
structure Valid (c : Config) : Prop where
  entry : c.entry.isEmpty = false
  output : c.output.isEmpty = false
  id : c.canvas.id.isEmpty = true ∨ isElementId c.canvas.id.text = true
  size : 0 < c.canvas.width ∧ 0 < c.canvas.height
  fps : 0 ≤ c.fps ∧ c.fps ≤ 240
  background : ∃ color, c.canvas.background = ofString color ∧ Color.IsCanonical color

/-- Validation changes nothing but the form of the background. -/
theorem valid_of_validate (h : c.validate = .ok c') :
    c'.Valid ∧ ∃ color, c' = { c with canvas := { c.canvas with background := color } } := by
  unfold validate at h
  split_ifs at h with hentry houtput hid hsize hfps
  split at h
  · cases h
  · next color hcolor =>
    have hid : c.canvas.id.isEmpty = true ∨ isElementId c.canvas.id.text = true := by
      by_contra hnot
      obtain ⟨hfull, hnone⟩ := not_or.1 hnot
      exact hid (by simp [hfull, hnone])
    have hsize : 0 < c.canvas.width ∧ 0 < c.canvas.height := by omega
    have hfps : 0 ≤ c.fps ∧ c.fps ≤ 240 := by omega
    cases h
    exact ⟨⟨by simpa using hentry, by simpa using houtput, hid, hsize, hfps, color, rfl,
      Color.isCanonical_of_resolve hcolor⟩, _, rfl⟩

/-- A valid configuration is left as it is. -/
theorem Valid.validate (h : c.Valid) : c.validate = .ok c := by
  obtain ⟨hentry, houtput, hid, hsize, hfps, color, hcolor, hcanonical⟩ := h
  have hid : ¬ (!c.canvas.id.isEmpty && !isElementId c.canvas.id.text) = true := by
    rcases hid with hempty | hid
    · simp [hempty]
    · simp [hid]
  have hresolve : Color.resolve c.canvas.background = .ok color := by
    rw [hcolor]
    exact Color.resolve_of_isCanonical hcanonical
  rw [Config.validate, if_neg (by simp [hentry]), if_neg (by simp [houtput]), if_neg hid,
    if_neg (by omega), if_neg (by omega), hresolve]
  dsimp only
  rw [← hcolor]

/-! ## Documents -/

/-- The texts of the canvas are texts of characters, and its numbers fit into 64 bits. -/
structure CanvasReadable (canvas : Canvas) : Prop where
  id : canvas.id.IsPlain
  width : Fits canvas.width
  height : Fits canvas.height
  background : canvas.background.IsPlain

/-- The texts of the configuration are texts of characters, and its numbers fit into 64 bits. -/
structure Readable (c : Config) : Prop where
  entry : c.entry.IsPlain
  output : c.output.IsPlain
  canvas : CanvasReadable c.canvas
  fps : Fits c.fps

theorem isPlain_ofString (s : String) : (ofString s).IsPlain := ⟨s, rfl⟩

theorem readable_default : Readable default :=
  ⟨isPlain_ofString _, isPlain_ofString _,
    ⟨isPlain_ofString _, rfl, rfl, isPlain_ofString _⟩, rfl⟩

theorem keeps_canvasFields : ∀ f ∈ canvasFields, f.Keeps CanvasReadable := by
  simp only [canvasFields, List.forall_mem_cons]
  refine ⟨?_, ?_, ?_, ?_, fun f hf => absurd hf List.not_mem_nil⟩
  · exact Field.keeps_of (fun _ => reads_string) (fun _ h => h.background)
      fun _ _ h hv => ⟨h.id, h.width, h.height, hv⟩
  · exact Field.keeps_of (fun _ => reads_int) (fun _ h => h.height)
      fun _ _ h hv => ⟨h.id, h.width, hv, h.background⟩
  · exact Field.keeps_of (fun _ => reads_string) (fun _ h => h.id)
      fun _ _ h hv => ⟨hv, h.width, h.height, h.background⟩
  · exact Field.keeps_of (fun _ => reads_int) (fun _ h => h.width)
      fun _ _ h hv => ⟨h.id, hv, h.height, h.background⟩

theorem keeps_fields : ∀ f ∈ fields, f.Keeps Readable := by
  simp only [fields, List.forall_mem_cons]
  refine ⟨?_, ?_, ?_, ?_, ?_, ?_, fun f hf => absurd hf List.not_mem_nil⟩
  · exact Field.keeps_of (fun _ => reads_object keeps_canvasFields) (fun _ h => h.canvas)
      fun _ _ h hv => ⟨h.entry, h.output, hv, h.fps⟩
  · exact Field.keeps_of (fun _ => reads_string) (fun _ h => h.entry)
      fun _ _ h hv => ⟨hv, h.output, h.canvas, h.fps⟩
  · exact Field.keeps_of (fun _ => reads_int) (fun _ h => h.fps)
      fun _ _ h hv => ⟨h.entry, h.output, h.canvas, hv⟩
  · exact Field.keeps_of (fun old _ => reads_bool old) (fun _ _ => trivial)
      fun _ _ h _ => ⟨h.entry, h.output, h.canvas, h.fps⟩
  · exact Field.keeps_of (fun _ => reads_string) (fun _ h => h.output)
      fun _ _ h hv => ⟨h.entry, hv, h.canvas, h.fps⟩
  · exact Field.keeps_of (fun old _ => reads_bool old) (fun _ _ => trivial)
      fun _ _ h _ => ⟨h.entry, h.output, h.canvas, h.fps⟩

/-- A configuration that a document gives is valid and can be read back. -/
theorem valid_of_parse {data : ByteArray} (hdata : data.IsValidUTF8) (h : parse data = .ok c) :
    c.Valid ∧ c.Readable := by
  rw [parse] at h
  split at h
  · cases h
  · next c₁ hdocument =>
    have hreadable := document_keeps keeps_fields readable_default hdata hdocument
    obtain ⟨hvalid, color, rfl⟩ := valid_of_validate h
    obtain ⟨color, hcolor, -⟩ := hvalid.background
    exact ⟨hvalid, hreadable.entry, hreadable.output,
      ⟨hreadable.canvas.id, hreadable.canvas.width, hreadable.canvas.height, color, hcolor⟩,
      hreadable.fps⟩

/-! ## Reading back -/

/-- The configuration with the default in place of an empty canvas id. -/
def withCanvasId (c : Config) : Config :=
  { c with canvas := { c.canvas with
      id := if c.canvas.id.isEmpty then Script.defaultCanvas else c.canvas.id } }

/-- The members of a canvas set all of it, but an empty id. -/
theorem membersRead_canvas {canvas : Canvas} (h : CanvasReadable canvas) (old : Canvas) :
    MembersRead canvasFields 2
      ((if canvas.id.isEmpty then [] else [("id", .string canvas.id)]) ++
        [("width", .int canvas.width), ("height", .int canvas.height),
          ("background", .string canvas.background)]) old
      { canvas with id := if canvas.id.isEmpty then old.id else canvas.id } := by
  have hid : MembersRead canvasFields 2
      (if canvas.id.isEmpty then [] else [("id", .string canvas.id)]) old
      { old with id := if canvas.id.isEmpty then old.id else canvas.id } := by
    by_cases hempty : canvas.id.isEmpty = true
    · rw [if_pos hempty, if_pos hempty]
      exact .nil old
    · rw [if_neg hempty, if_neg hempty]
      exact .string (by decide +kernel) (fun (c : Canvas) v => { c with id := v }) (fun _ => rfl)
        h.id
  have hwidth (r : Canvas) : MembersRead canvasFields 2 [("width", .int canvas.width)] r
      { r with width := canvas.width } :=
    .int (by decide +kernel) (fun (c : Canvas) v => { c with width := v }) (fun _ => rfl) h.width
  have hheight (r : Canvas) : MembersRead canvasFields 2 [("height", .int canvas.height)] r
      { r with height := canvas.height } :=
    .int (by decide +kernel) (fun (c : Canvas) v => { c with height := v }) (fun _ => rfl) h.height
  have hbackground (r : Canvas) : MembersRead canvasFields 2
      [("background", .string canvas.background)] r { r with background := canvas.background } :=
    .string (by decide +kernel) (fun (c : Canvas) v => { c with background := v }) (fun _ => rfl)
      h.background
  exact hid.append ((hwidth _).append ((hheight _).append (hbackground _)))

/-- The members of a configuration set all of it, but an empty canvas id and a zero frame rate. -/
theorem membersRead_config (h : c.Readable) :
    ∃ ms, c.toJson = .object ms ∧ MembersRead fields 1 ms default c.withCanvasId := by
  refine ⟨_, rfl, ?_⟩
  have hentry (r : Config) : MembersRead fields 1 [("entry", .string c.entry)] r
      { r with entry := c.entry } :=
    .string (by decide +kernel) (fun (c : Config) v => { c with entry := v }) (fun _ => rfl) h.entry
  have houtput (r : Config) : MembersRead fields 1 [("output", .string c.output)] r
      { r with output := c.output } :=
    .string (by decide +kernel) (fun (c : Config) v => { c with output := v }) (fun _ => rfl)
      h.output
  have hcanvas (r : Config) : MembersRead fields 1
      [("canvas", .object ((if c.canvas.id.isEmpty then [] else [("id", .string c.canvas.id)]) ++
        [("width", .int c.canvas.width), ("height", .int c.canvas.height),
          ("background", .string c.canvas.background)]))] r
      { r with canvas := { c.canvas with
          id := if c.canvas.id.isEmpty then r.canvas.id else c.canvas.id } } :=
    .object (by decide +kernel) (fun (c : Config) v => { c with canvas := v }) (fun _ => rfl)
      (membersRead_canvas h.canvas r.canvas)
  have hfps (r : Config) (hr : r.fps = 0) : MembersRead fields 1
      (if c.fps = 0 then [] else [("fps", .int c.fps)]) r { r with fps := c.fps } := by
    split
    · next hzero =>
      rw [hzero, ← hr]
      exact .nil r
    · exact .int (by decide +kernel) (fun (c : Config) v => { c with fps := v }) (fun _ => rfl)
        h.fps
  have hminify (r : Config) : MembersRead fields 1 [("minify", .bool c.minify)] r
      { r with minify := c.minify } :=
    .bool (by decide +kernel) (fun (c : Config) v => { c with minify := v }) (fun _ => rfl) c.minify
  have hlineMap (r : Config) : MembersRead fields 1 [("sourcemap", .bool c.lineMap)] r
      { r with lineMap := c.lineMap } :=
    .bool (by decide +kernel) (fun (c : Config) v => { c with lineMap := v }) (fun _ => rfl)
      c.lineMap
  exact (((hentry _).append ((houtput _).append (hcanvas _))).append (hfps _ rfl)).append
    ((hminify _).append (hlineMap _))

theorem document_print (h : c.Readable) :
    document fields default c.print.toUTF8 = some c.withCanvasId := by
  obtain ⟨ms, hjson, hread⟩ := membersRead_config h
  have hfeed : spelled "\n".toList = ['\n'] := spelled_of_all (by decide)
  rw [document, source_toUTF8, print, hjson, String.toList_append, spelled_append, hfeed,
    object_pretty hread 1 ['\n']]
  rfl

theorem Valid.withCanvasId (h : c.Valid) : c.withCanvasId.Valid := by
  refine ⟨h.entry, h.output, ?_, h.size, h.fps, h.background⟩
  have hdefault : isElementId (ofString Script.defaultCanvas).text = true := by decide +kernel
  by_cases hempty : c.canvas.id.isEmpty = true
  · rw [Config.withCanvasId, if_pos hempty]
    exact .inr hdefault
  · rw [Config.withCanvasId, if_neg hempty]
    exact h.id

/-- A configuration that a document gives is valid as it is, with a canonical background, and it is
read back from what is written of it, with the default in place of an empty canvas id. -/
theorem parse_print {data : ByteArray} (hdata : data.IsValidUTF8) (h : parse data = .ok c) :
    (∃ color, c.canvas.background = ofString color ∧ Color.IsCanonical color) ∧
      c.validate = .ok c ∧ parse c.print.toUTF8 = .ok c.withCanvasId := by
  obtain ⟨hvalid, hreadable⟩ := valid_of_parse hdata h
  refine ⟨hvalid.background, hvalid.validate, ?_⟩
  rw [parse, document_print hreadable]
  exact hvalid.withCanvasId.validate

theorem parse_print_escaped :
    let data := (r#"{"entry": "\u003c\ud83d\ude00é", "# ++
      r#""canvas": {"id": "", "background": " #fA0"}}"#).toUTF8
    let c : Config := { default with
      entry := "<😀é", canvas := { default.canvas with id := "", background := "#FFAA00" } }
    data.IsValidUTF8 ∧ parse data = .ok c ∧
      (∃ color, c.canvas.background = ofString color ∧ Color.IsCanonical color) ∧
      c.validate = .ok c ∧ parse c.print.toUTF8 = .ok c.withCanvasId := by
  intro data c
  have hdata : data.IsValidUTF8 := String.isValidUTF8 _
  have hparse : parse data = .ok c := by decide +kernel
  exact ⟨hdata, hparse, parse_print hdata hparse⟩

end Config

end Easel
