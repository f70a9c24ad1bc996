import Easel.Json.Reader
import Easel.Proofs.Text.Utf8

/-!
# What readers give and leave

A document that is a text is read byte by byte.  A reader stops after a byte below 128, so what it
leaves is a text again, and a string it gives is a text of characters (`reads_string`).  A number it
gives fits into 64 bits (`reads_int`).  What the fields of a record keep, an object keeps
(`reads_object`).
-/

namespace Easel.Json

open Text RawText

/-! ## Documents -/

/-- The bytes as the characters of the same numbers. -/
def shown (bytes : List UInt8) : List Char := bytes.map fun b => Char.ofNat b.toNat

/-- The characters show bytes that make up a text together with some bytes before them. -/
def Shows (before : List UInt8) (cs : List Char) : Prop :=
  ∃ bytes, cs = shown bytes ∧ IsText (before ++ bytes)

variable {before : List UInt8} {c : Char} {cs rest : List Char}

theorem shows_source {data : ByteArray} (hdata : data.IsValidUTF8) : Shows [] (source data) :=
  ⟨data.toList, rfl, _, toList_toUTF8 ⟨data, hdata⟩⟩

theorem toNat_shown (b : UInt8) : (Char.ofNat b.toNat).toNat = b.toNat :=
  toNat_charOfNat (.inl (Nat.lt_trans b.toNat_lt (by decide)))

/-- The next byte belongs to the text. -/
theorem Shows.step (h : Shows before (c :: cs)) : Shows (before ++ [c.toNat.toUInt8]) cs := by
  obtain ⟨bytes, hshown, htext⟩ := h
  cases bytes with
  | nil => cases hshown
  | cons b bytes =>
    obtain ⟨rfl, rfl⟩ := List.cons.inj hshown
    refine ⟨bytes, rfl, ?_⟩
    rw [toNat_shown, List.append_assoc]
    simpa using htext

/-- A text can be cut at a character of ASCII. -/
theorem Shows.cut (h : Shows before (c :: cs)) (hc : c.toNat < 128) :
    IsText before ∧ Shows [] cs := by
  obtain ⟨bytes, hshown, htext⟩ := h
  cases bytes with
  | nil => cases hshown
  | cons b bytes =>
    obtain ⟨rfl, rfl⟩ := List.cons.inj hshown
    have hb : b < 128 := by
      rw [UInt8.lt_iff_toNat_lt, ← toNat_shown]
      exact hc
    obtain ⟨hbefore, hafter⟩ := htext.cut hb
    exact ⟨hbefore, bytes, rfl, hafter⟩

theorem Shows.dropWhile {p : Char → Bool} (hp : ∀ c, p c = true → c.toNat < 128)
    (h : Shows [] cs) : Shows [] (cs.dropWhile p) := by
  induction cs with
  | nil => exact h
  | cons c cs ih =>
    rw [List.dropWhile_cons]
    split
    · next hc => exact ih (h.cut (hp c hc)).2
    · exact h

theorem of_isSpace {c : Char} (hc : isSpace c = true) :
    c.toNat < 128 ∧ isAsciiDigit c = false := by
  simp only [isSpace, Bool.or_eq_true, beq_iff_eq] at hc
  rcases hc with ((rfl | rfl) | rfl) | rfl <;> decide

theorem Shows.skipSpace (h : Shows [] cs) : Shows [] (skipSpace cs) :=
  h.dropWhile fun _ hc => (of_isSpace hc).1

theorem Shows.afterWord {word : List Char} (hword : word.all (fun c => c.toNat < 128) = true)
    (h : Shows [] cs) (hrest : afterWord word cs = some rest) : Shows [] rest := by
  induction word generalizing cs with
  | nil =>
    cases hrest
    exact h
  | cons w word ih =>
    have hw : w.toNat < 128 := toNat_lt_of_all hword w List.mem_cons_self
    have hword := (Bool.and_eq_true_iff.1 hword).2
    cases cs with
    | nil => cases hrest
    | cons c cs =>
      rw [Json.afterWord] at hrest
      split at hrest
      · next heq =>
        subst heq
        exact ih hword (h.cut hw).2 hrest
      · cases hrest

theorem Shows.skipString (h : Shows before cs) (hrest : skipString cs = some rest) :
    Shows [] rest := by
  fun_induction Json.skipString cs generalizing before with
  | case1 => cases hrest
  | case2 tail =>
    cases hrest
    exact (h.cut (by decide)).2
  | case3 => cases hrest
  | case4 c tail hc ih => exact ih h.step.step hrest
  | case5 => cases hrest
  | case6 c tail hquote hslash hc ih => exact ih h.step hrest

theorem Shows.skipCollection {opening closing : Char} (hclosing : closing.toNat < 128) {extra : Nat}
    {depth : Int} {spot : Spot} (h : Shows before cs)
    (hrest : skipCollection opening closing extra depth spot cs = some rest) : Shows [] rest := by
  induction cs generalizing before extra depth spot with
  | nil => cases hrest
  | cons c cs ih =>
    rw [Json.skipCollection.eq_def] at hrest
    dsimp only at hrest
    split at hrest
    · cases hrest
    · split at hrest
      · exact ih h.step hrest
      · exact ih h.step hrest
      · split at hrest
        · exact ih h.step hrest
        · split at hrest
          · split at hrest
            · cases hrest
            · exact ih h.step hrest
          · split at hrest
            · next hclose =>
              cases hrest
              exact (h.cut (hclose.1 ▸ hclosing)).2
            · split at hrest <;> exact ih h.step hrest

theorem toNat_lt_of_isNumberChar {c : Char} (hc : isNumberChar c = true) : c.toNat < 128 := by
  simp only [isNumberChar, Bool.or_eq_true, beq_iff_eq] at hc
  rcases hc with ((((hdigit | rfl) | rfl) | rfl) | rfl) | rfl
  · exact toNat_lt_of_isAsciiDigit hdigit
  all_goals decide

theorem Shows.skipValue {depth : Nat} (h : Shows [] cs) (hrest : skipValue depth cs = some rest) :
    Shows [] rest := by
  have hspace := h.skipSpace
  unfold Json.skipValue at hrest
  split at hrest
  · next tail heq =>
    rw [heq] at hspace
    exact (hspace.cut (by decide)).2.skipCollection (by decide) hrest
  · next tail heq =>
    rw [heq] at hspace
    exact (hspace.cut (by decide)).2.skipCollection (by decide) hrest
  · next tail heq =>
    rw [heq] at hspace
    exact hspace.step.skipString hrest
  · next tail heq =>
    rw [heq] at hspace
    exact (hspace.cut (by decide)).2.afterWord (by decide) hrest
  · next tail heq =>
    rw [heq] at hspace
    exact (hspace.cut (by decide)).2.afterWord (by decide) hrest
  · next tail heq =>
    rw [heq] at hspace
    exact (hspace.cut (by decide)).2.afterWord (by decide) hrest
  · next c tail _ _ _ _ _ _ heq =>
    rw [heq] at hspace
    split at hrest
    · next hfirst =>
      cases hrest
      have hc : c.toNat < 128 := by
        rcases hfirst with rfl | hdigit
        · decide
        · exact toNat_lt_of_isAsciiDigit hdigit
      exact (hspace.cut hc).2.dropWhile fun _ => toNat_lt_of_isNumberChar
    · cases hrest
  · cases hrest

/-! ## Strings -/

theorem toNat_lt_of_codeUnit {a b c d : Char} {n : Nat} (hn : codeUnit a b c d = some n) :
    a.toNat < 128 ∧ b.toNat < 128 ∧ c.toNat < 128 ∧ d.toNat < 128 := by
  simp only [codeUnit, Option.bind_eq_bind, Option.bind_eq_some_iff] at hn
  obtain ⟨_, ha, _, hb, _, hc, _, hd, -⟩ := hn
  exact ⟨toNat_lt_of_hexValue? ha, toNat_lt_of_hexValue? hb, toNat_lt_of_hexValue? hc,
    toNat_lt_of_hexValue? hd⟩

theorem toNat_lt_of_shortEscape {c e : Char} (he : shortEscape c = some e) :
    c.toNat < 128 ∧ e.toNat < 128 := by
  unfold shortEscape at he
  split at he
  all_goals
    cases he
  all_goals decide

theorem isText_ofChar {c : Char} (hc : c.toNat < 128) : IsText [c.toNat.toUInt8] := by
  refine isText_of_lt ?_
  rw [UInt8.lt_iff_toNat_lt]
  show (UInt8.ofNat c.toNat).toNat < 128
  rw [toNat_ofNat (by omega)]
  exact hc

/-- A string of a document is a text, also after a code unit that may be half of a pair, and so is
what comes after it. -/
theorem Shows.pieces {ps : List Piece} (h : Shows before cs) (hps : pieces cs = some (ps, rest)) :
    IsText (before ++ joinPairs none ps) ∧
      (before = [] → ∀ hi, IsText (joinPairs (some hi) ps)) ∧ Shows [] rest := by
  fun_induction Json.pieces cs generalizing before ps rest with
  | case1 => cases hps
  | case2 tail =>
    cases hps
    obtain ⟨hbefore, hrest⟩ := h.cut (by decide)
    exact ⟨by simpa [joinPairs] using hbefore, fun _ hi => isText_encode _, hrest⟩
  | case3 a b c d tail ih =>
    simp only [Option.bind_eq_bind, Option.bind_eq_some_iff] at hps
    obtain ⟨n, hn, ⟨ps', rest'⟩, hrec, heq⟩ := hps
    cases heq
    obtain ⟨ha, hb, hc, hd⟩ := toNat_lt_of_codeUnit hn
    obtain ⟨hbefore, htail⟩ := h.cut (by decide)
    have htail := ((((htail.cut (by decide)).2.cut ha).2.cut hb).2.cut hc).2.cut hd
    obtain ⟨hfree, hwaiting, hrest⟩ := ih htail.2 hrec
    refine ⟨hbefore.append (hwaiting rfl n), fun _ hi => ?_, hrest⟩
    rw [joinPairs]
    split
    · exact (isText_encode _).append hfree
    · exact (isText_encode _).append (hwaiting rfl n)
  | case4 c tail hunit ih =>
    simp only [Option.bind_eq_bind, Option.bind_eq_some_iff] at hps
    obtain ⟨e, he, ⟨ps', rest'⟩, hrec, heq⟩ := hps
    cases heq
    obtain ⟨hc, hescaped⟩ := toNat_lt_of_shortEscape he
    obtain ⟨hbefore, htail⟩ := h.cut (by decide)
    obtain ⟨hfree, -, hrest⟩ := ih (htail.cut hc).2 hrec
    have hbyte := (isText_ofChar hescaped).append hfree
    exact ⟨hbefore.append hbyte, fun _ hi => (isText_encode _).append hbyte, hrest⟩
  | case5 => cases hps
  | case6 => cases hps
  | case7 c tail hquote _ _ _ _ ih =>
    simp only [Option.bind_eq_bind, Option.bind_eq_some_iff] at hps
    obtain ⟨⟨ps', rest'⟩, hrec, heq⟩ := hps
    cases heq
    obtain ⟨hfree, -, hrest⟩ := ih h.step hrec
    rw [List.append_assoc] at hfree
    refine ⟨hfree, ?_, hrest⟩
    rintro rfl hi
    exact (isText_encode _).append hfree

/-! ## Readers -/

/-- From a text a reader gives values with a property, and it leaves a text. -/
def Reads {α : Type} (P : α → Prop) (reader : Reader α) : Prop :=
  ∀ {cs v rest}, Shows [] cs → reader cs = some (v, rest) → P v ∧ Shows [] rest

/-- A value that is spelled by a word. -/
theorem Shows.word {α : Type} {v v' : α} {word : List Char} (h : Shows [] (c :: cs))
    (hc : c.toNat < 128) (hword : word.all (fun c => c.toNat < 128) = true)
    (hread : (Json.afterWord word cs).map (fun rest => (v, rest)) = some (v', rest)) :
    v' = v ∧ Shows [] rest := by
  obtain ⟨rest', hrest, heq⟩ := Option.map_eq_some_iff.1 hread
  cases heq
  exact ⟨rfl, (h.cut hc).2.afterWord hword hrest⟩

theorem reads_string {old : RawText} (hold : IsPlain old) : Reads IsPlain (string old) := by
  intro cs v rest h hread
  have hspace := h.skipSpace
  unfold string at hread
  split at hread
  · next tail heq =>
    rw [heq] at hspace
    obtain ⟨⟨ps, rest'⟩, hps, heq⟩ := Option.map_eq_some_iff.1 hread
    cases heq
    obtain ⟨htext, -, hrest⟩ := (hspace.cut (by decide)).2.pieces hps
    exact ⟨isPlain_ofBytes htext, hrest⟩
  · next tail heq =>
    rw [heq] at hspace
    obtain ⟨rfl, hrest⟩ := hspace.word (by decide) (by decide) hread
    exact ⟨hold, hrest⟩
  · cases hread

theorem reads_bool (old : Bool) : Reads (fun _ => True) (bool old) := by
  intro cs v rest h hread
  have hspace := h.skipSpace
  refine ⟨trivial, ?_⟩
  unfold bool at hread
  split at hread
  · next tail heq =>
    rw [heq] at hspace
    exact (hspace.word (by decide) (by decide) hread).2
  · next tail heq =>
    rw [heq] at hspace
    exact (hspace.word (by decide) (by decide) hread).2
  · next tail heq =>
    rw [heq] at hspace
    exact (hspace.word (by decide) (by decide) hread).2
  · cases hread

/-- The number fits into 64 bits. -/
def Fits (n : Int) : Prop := wrap n = n

theorem fits_wrap (n : Int) : Fits (wrap n) := Int.bmod_bmod

theorem reads_int {old : Int} (hold : Fits old) : Reads Fits (int old) := by
  intro cs v rest h hread
  have hspace := h.skipSpace
  unfold int at hread
  split at hread
  · next tail heq =>
    rw [heq] at hspace
    obtain ⟨n, -, heq⟩ := Option.map_eq_some_iff.1 hread
    cases heq
    exact ⟨fits_wrap _, (hspace.cut (by decide)).2.dropWhile fun _ => toNat_lt_of_isAsciiDigit⟩
  · next tail heq =>
    rw [heq] at hspace
    cases hread
    exact ⟨rfl, (hspace.cut (by decide)).2⟩
  · next tail heq =>
    rw [heq] at hspace
    obtain ⟨rfl, hrest⟩ := hspace.word (by decide) (by decide) hread
    exact ⟨hold, hrest⟩
  · split at hread
    · cases hread
    · obtain ⟨n, -, heq⟩ := Option.map_eq_some_iff.1 hread
      cases heq
      exact ⟨fits_wrap _, hspace.dropWhile fun _ => toNat_lt_of_isAsciiDigit⟩

/-! ## Objects -/

variable {σ : Type} {fields : List (Field σ)} {depth : Nat}

theorem mem_of_mem_narrow {index code : Nat} {f : Field σ} (hf : f ∈ narrow index code fields) :
    f ∈ fields := List.mem_of_mem_filter hf

theorem Shows.keyTail {index length : Nat} {field : Option (Field σ)} (h : Shows before cs)
    (hkey : keyTail fields index length cs = some (field, rest)) :
    (∀ f, field = some f → f ∈ fields) ∧ Shows [] rest := by
  -- A name that no field starts with is passed over.
  have hskip {before : List UInt8} {cs : List Char} {all : List (Field σ)} (h : Shows before cs)
      (hkey : (Json.skipString cs).map (fun rest => ((none : Option (Field σ)), rest)) =
        some (field, rest)) : (∀ f, field = some f → f ∈ all) ∧ Shows [] rest := by
    obtain ⟨rest', hrest, heq⟩ := Option.map_eq_some_iff.1 hkey
    cases heq
    exact ⟨fun f hf => (by cases hf), h.skipString hrest⟩
  fun_induction Json.keyTail fields index length cs generalizing before with
  | case1 => cases hkey
  | case2 all index length tail =>
    cases hkey
    refine ⟨fun f hf => ?_, (h.cut (by decide)).2⟩
    exact List.mem_of_mem_head? (Option.filter_eq_some_iff.1 hf).1
  | case3 all index length a b c d tail hnarrow => exact hskip h.step.step hkey
  | case4 all index length a b c d tail hnarrow ih =>
    obtain ⟨hfield, hrest⟩ := ih h.step.step.step.step.step.step hkey
    exact ⟨fun f hf => mem_of_mem_narrow (hfield f hf), hrest⟩
  | case5 => cases hkey
  | case6 => exact hskip h.step.step hkey
  | case7 _ _ _ _ _ _ _ _ _ ih => exact ih h.step.step.step hkey
  | case8 => cases hkey
  | case9 => cases hkey
  | case10 => exact hskip h.step hkey
  | case11 _ _ _ _ _ _ _ _ _ _ _ _ ih =>
    obtain ⟨hfield, hrest⟩ := ih h.step hkey
    exact ⟨fun f hf => mem_of_mem_narrow (hfield f hf), hrest⟩

/-- How one member changes a record, and what comes after it. -/
theorem members_eq_some {n : Nat} {record : σ} {out : σ × List Char}
    (h : members depth fields (n + 1) record cs = some out) :
    ∃ tail field after value record' more, skipSpace cs = '"' :: tail ∧
      keyTail fields 0 0 tail = some (field, after) ∧ skipSpace after = ':' :: value ∧
      field.elim ((skipValue depth value).map fun rest => (record, rest))
        (fun f => f.read record value) = some (record', more) ∧
      ((∃ rest, skipSpace more = '}' :: rest ∧ out = (record', rest)) ∨
        ∃ rest, skipSpace more = ',' :: rest ∧ members depth fields n record' rest = some out) := by
  rw [members] at h
  split at h
  · next tail htail =>
    simp only [Option.bind_eq_bind, Option.bind_eq_some_iff] at h
    obtain ⟨⟨field, after⟩, hkey, h⟩ := h
    dsimp only at h
    split at h
    · next value hvalue =>
      simp only [Option.bind_eq_some_iff] at h
      obtain ⟨⟨record', more⟩, hread, h⟩ := h
      refine ⟨tail, field, after, value, record', more, htail, hkey, hvalue, ?_, ?_⟩
      · cases field <;> exact hread
      · dsimp only at h
        split at h
        · next rest hrest => exact .inl ⟨rest, hrest, (Option.some.inj h).symm⟩
        · next rest hrest => exact .inr ⟨rest, hrest, h⟩
        · cases h
    · cases h
  · cases h

/-- Reading a field keeps a property of the record. -/
def Field.Keeps (P : σ → Prop) (f : Field σ) : Prop := ∀ record, P record → Reads P (f.read record)

theorem Field.keeps_of {α : Type} {name : String} {reader : α → Reader α} {get : σ → α}
    {set : σ → α → σ} {P : σ → Prop} {Q : α → Prop} (hreader : ∀ old, Q old → Reads Q (reader old))
    (hget : ∀ record, P record → Q (get record))
    (hset : ∀ record v, P record → Q v → P (set record v)) :
    (Field.of name reader get set).Keeps P := by
  intro record hrecord cs v rest h hread
  obtain ⟨⟨value, rest'⟩, hvalue, heq⟩ := Option.map_eq_some_iff.1 hread
  cases heq
  obtain ⟨hproperty, hrest⟩ := hreader _ (hget record hrecord) h hvalue
  exact ⟨hset record value hrecord hproperty, hrest⟩

section Keeps

variable {P : σ → Prop} (hfields : ∀ f ∈ fields, f.Keeps P)
include hfields

theorem reads_members {n : Nat} {record : σ} (hrecord : P record) :
    Reads P (members depth fields n record) := by
  intro cs v rest h hread
  induction n generalizing record cs with
  | zero => cases hread
  | succ n ih =>
    obtain ⟨tail, field, after, value, record', more, htail, hkey, hvalue, hmember, hmore⟩ :=
      members_eq_some hread
    have hspace := h.skipSpace
    rw [htail] at hspace
    obtain ⟨hfield, hafter⟩ := hspace.step.keyTail hkey
    have hafter := hafter.skipSpace
    rw [hvalue] at hafter
    have hvalue := (hafter.cut (by decide)).2
    obtain ⟨hrecord', hrest⟩ : P record' ∧ Shows [] more := by
      cases field with
      | some f => exact hfields f (hfield f rfl) record hrecord hvalue hmember
      | none =>
        obtain ⟨rest', hskip, heq⟩ := Option.map_eq_some_iff.1 hmember
        cases heq
        exact ⟨hrecord, hvalue.skipValue hskip⟩
    have hrest := hrest.skipSpace
    rcases hmore with ⟨rest', hend, heq⟩ | ⟨rest', hnext, hread⟩
    · cases heq
      rw [hend] at hrest
      exact ⟨hrecord', (hrest.cut (by decide)).2⟩
    · rw [hnext] at hrest
      exact ih hrecord' (hrest.cut (by decide)).2 hread

theorem reads_object {record : σ} (hrecord : P record) :
    Reads P (object depth fields record) := by
  intro cs v rest h hread
  have hspace := h.skipSpace
  unfold object at hread
  split at hread
  · next tail heq =>
    rw [heq] at hspace
    have hinner := (hspace.cut (by decide)).2.skipSpace
    split at hread
    · next tail' heq' =>
      cases hread
      rw [heq'] at hinner
      exact ⟨hrecord, (hinner.cut (by decide)).2⟩
    · exact reads_members hfields hrecord hinner hread
  · next tail heq =>
    rw [heq] at hspace
    obtain ⟨rfl, hrest⟩ := hspace.word (by decide) (by decide) hread
    exact ⟨hrecord, hrest⟩
  · cases hread

/-- A text that is a document keeps what its fields keep. -/
theorem document_keeps {record v : σ} (hrecord : P record) {data : ByteArray}
    (hdata : data.IsValidUTF8) (hread : document fields record data = some v) : P v := by
  rw [document] at hread
  split at hread
  · next v' rest hobject =>
    split at hread
    · cases hread
      exact (reads_object hfields hrecord (shows_source hdata) hobject).1
    · cases hread
  · cases hread

end Keeps

end Easel.Json
