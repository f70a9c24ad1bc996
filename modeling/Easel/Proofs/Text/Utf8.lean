import Easel.Text.Raw
import Mathlib.Data.List.Basic

/-!
# Characters and their bytes

The bytes of characters are decoded to these characters, with no byte left over
(`glyphs_flatMap_encode`).  A byte below 128 is a character by itself and part of no other, so a
text can be cut before and after it: `IsText.cut`.  Raw texts that are read from such bytes are texts
of characters (`RawText.isPlain_ofBytes`).
-/

namespace Easel.Text

/-! ## Bytes of a string -/

theorem toList_loop (bytes : ByteArray) (i : Nat) (read : List UInt8) :
    ByteArray.toList.loop bytes i read = read.reverse ++ bytes.data.toList.drop i := by
  fun_induction ByteArray.toList.loop bytes i read with
  | case1 i read hi ih =>
    have hhead : bytes.data.toList.drop i = bytes.get! i :: bytes.data.toList.drop (i + 1) := by
      have hlength : i < bytes.data.toList.length := by simpa using hi
      rw [List.drop_eq_getElem_cons hlength]
      congr 1
      simp [ByteArray.get!, getElem!_pos, hi]
    rw [ih, hhead]
    simp
  | case2 i read hi =>
    have hnil : bytes.data.toList.drop i = [] := List.drop_eq_nil_of_le (by simpa using hi)
    rw [hnil, List.append_nil]

theorem toList_toUTF8 (s : String) : s.toUTF8.toList = s.toList.flatMap String.utf8EncodeChar := by
  have hbytes : s.toUTF8 = s.toList.utf8Encode := String.utf8Encode_toList.symm
  rw [hbytes, ByteArray.toList, toList_loop]
  simp [List.utf8Encode]

/-! ## Decoding -/

theorem toNat_ofNat {n : Nat} (hn : n < 256) : (UInt8.ofNat n).toNat = n :=
  UInt8.toNat_ofNat_of_lt' hn

theorem between_ofNat_iff {n : Nat} (low high : Nat) (hn : n < 256) (hlow : low < 256)
    (hhigh : high < 256) :
    UInt8.ofNat low ≤ UInt8.ofNat n ∧ UInt8.ofNat n ≤ UInt8.ofNat high ↔ low ≤ n ∧ n ≤ high := by
  rw [UInt8.le_iff_toNat_le, UInt8.le_iff_toNat_le, toNat_ofNat hn, toNat_ofNat hlow,
    toNat_ofNat hhigh]

theorem tailBits?_ofNat (n : Nat) : tailBits? (UInt8.ofNat (n % 64 + 128)) = some (n % 64) := by
  have htail : (0x80 : UInt8) ≤ UInt8.ofNat (n % 64 + 128) ∧ UInt8.ofNat (n % 64 + 128) ≤ 0xbf :=
    (between_ofNat_iff 128 191 (by omega) (by decide) (by decide)).2 (by omega)
  rw [tailBits?, if_pos htail, toNat_ofNat (by omega), Nat.add_sub_cancel]

section Long

variable {v : Nat} (hvalid : v.isValidChar) (rest : List UInt8)
include hvalid

theorem decodeLong_two (hlow : 128 ≤ v) (hhigh : v < 2048) :
    decodeLong (UInt8.ofNat (v / 64 % 32 + 192)) (UInt8.ofNat (v % 64 + 128) :: rest) =
      some (Char.ofNat v, 1) := by
  have hbyte : v / 64 % 32 + 192 < 256 := by omega
  have hfirst : (0xc2 : UInt8) ≤ UInt8.ofNat (v / 64 % 32 + 192) ∧
      UInt8.ofNat (v / 64 % 32 + 192) ≤ 0xdf :=
    (between_ofNat_iff 194 223 hbyte (by decide) (by decide)).2 (by omega)
  have hvalue : (v / 64 % 32 + 192 - 192) * 64 + v % 64 = v := by omega
  simp only [decodeLong, if_pos hfirst, toNat_ofNat hbyte, tailBits?_ofNat, hvalue,
    Option.bind_eq_bind, Option.bind_some]
  rw [if_pos ⟨hlow, hvalid⟩]

theorem decodeLong_three (hlow : 2048 ≤ v) (hhigh : v < 65536) :
    decodeLong (UInt8.ofNat (v / 4096 % 16 + 224))
        (UInt8.ofNat (v / 64 % 64 + 128) :: UInt8.ofNat (v % 64 + 128) :: rest) =
      some (Char.ofNat v, 2) := by
  have hbyte : v / 4096 % 16 + 224 < 256 := by omega
  have hother : ¬ ((0xc2 : UInt8) ≤ UInt8.ofNat (v / 4096 % 16 + 224) ∧
      UInt8.ofNat (v / 4096 % 16 + 224) ≤ 0xdf) :=
    mt (between_ofNat_iff 194 223 hbyte (by decide) (by decide)).1 (by omega)
  have hfirst : (0xe0 : UInt8) ≤ UInt8.ofNat (v / 4096 % 16 + 224) ∧
      UInt8.ofNat (v / 4096 % 16 + 224) ≤ 0xef :=
    (between_ofNat_iff 224 239 hbyte (by decide) (by decide)).2 (by omega)
  have hvalue : ((v / 4096 % 16 + 224 - 224) * 64 + v / 64 % 64) * 64 + v % 64 = v := by omega
  simp only [decodeLong, if_neg hother, if_pos hfirst, toNat_ofNat hbyte, tailBits?_ofNat, hvalue,
    Option.bind_eq_bind, Option.bind_some]
  rw [if_pos ⟨hlow, hvalid⟩]

theorem decodeLong_four (hlow : 65536 ≤ v) (hhigh : v < 0x110000) :
    decodeLong (UInt8.ofNat (v / 262144 % 8 + 240)) (UInt8.ofNat (v / 4096 % 64 + 128) ::
        UInt8.ofNat (v / 64 % 64 + 128) :: UInt8.ofNat (v % 64 + 128) :: rest) =
      some (Char.ofNat v, 3) := by
  have hbyte : v / 262144 % 8 + 240 < 256 := by omega
  have htwo : ¬ ((0xc2 : UInt8) ≤ UInt8.ofNat (v / 262144 % 8 + 240) ∧
      UInt8.ofNat (v / 262144 % 8 + 240) ≤ 0xdf) :=
    mt (between_ofNat_iff 194 223 hbyte (by decide) (by decide)).1 (by omega)
  have hthree : ¬ ((0xe0 : UInt8) ≤ UInt8.ofNat (v / 262144 % 8 + 240) ∧
      UInt8.ofNat (v / 262144 % 8 + 240) ≤ 0xef) :=
    mt (between_ofNat_iff 224 239 hbyte (by decide) (by decide)).1 (by omega)
  have hfirst : (0xf0 : UInt8) ≤ UInt8.ofNat (v / 262144 % 8 + 240) ∧
      UInt8.ofNat (v / 262144 % 8 + 240) ≤ 0xf4 :=
    (between_ofNat_iff 240 244 hbyte (by decide) (by decide)).2 (by omega)
  have hvalue : (((v / 262144 % 8 + 240 - 240) * 64 + v / 4096 % 64) * 64 + v / 64 % 64) * 64 +
      v % 64 = v := by omega
  simp only [decodeLong, if_neg htwo, if_neg hthree, if_pos hfirst, toNat_ofNat hbyte,
    tailBits?_ofNat, hvalue, Option.bind_eq_bind, Option.bind_some]
  rw [if_pos ⟨hlow, hvalid⟩]

end Long

/-- A character beyond ASCII is read back from its bytes, all of which are beyond ASCII. -/
theorem decodeLong_encode {c : Char} (hc : 128 ≤ c.toNat) :
    ∃ b tail, String.utf8EncodeChar c = b :: tail ∧ (∀ x ∈ b :: tail, 128 ≤ x) ∧
      ∀ rest, decodeLong b (tail ++ rest) = some (c, tail.length) := by
  have hvalid : c.toNat.isValidChar := c.valid
  have hmax : c.toNat < 0x110000 := by
    rcases hvalid with hlow | hhigh <;> omega
  have hlong {n : Nat} (hn : n < 256) (hn' : 128 ≤ n) : 128 ≤ UInt8.ofNat n := by
    rw [UInt8.le_iff_toNat_le, toNat_ofNat hn]
    exact hn'
  unfold String.utf8EncodeChar
  simp only [show c.val.toNat = c.toNat from rfl]
  rw [if_neg (by omega)]
  split
  · refine ⟨_, _, rfl, ?_, fun rest => ?_⟩
    · simp only [List.forall_mem_cons]
      exact ⟨hlong (by omega) (by omega), hlong (by omega) (by omega), by simp⟩
    · rw [List.cons_append, decodeLong_two hvalid _ hc (by omega), Char.ofNat_toNat]
      rfl
  · split
    · refine ⟨_, _, rfl, ?_, fun rest => ?_⟩
      · simp only [List.forall_mem_cons]
        exact ⟨hlong (by omega) (by omega), hlong (by omega) (by omega),
          hlong (by omega) (by omega), by simp⟩
      · rw [List.cons_append, List.cons_append, decodeLong_three hvalid _ (by omega) (by omega),
          Char.ofNat_toNat]
        rfl
    · refine ⟨_, _, rfl, ?_, fun rest => ?_⟩
      · simp only [List.forall_mem_cons]
        exact ⟨hlong (by omega) (by omega), hlong (by omega) (by omega),
          hlong (by omega) (by omega), hlong (by omega) (by omega), by simp⟩
      · rw [List.cons_append, List.cons_append, List.cons_append,
          decodeLong_four hvalid _ (by omega) hmax, Char.ofNat_toNat]
        rfl

theorem encode_of_lt {c : Char} (hc : c.toNat < 128) :
    String.utf8EncodeChar c = [UInt8.ofNat c.toNat] := by
  unfold String.utf8EncodeChar
  exact if_pos (Nat.le_of_lt_succ hc)

theorem glyphsFrom_append (read rest : List UInt8) :
    glyphsFrom read.length (read ++ rest) = glyphsFrom 0 rest := by
  induction read with
  | nil => rfl
  | cons b read ih => exact ih

theorem glyphsFrom_encode_append (c : Char) (rest : List UInt8) :
    glyphsFrom 0 (String.utf8EncodeChar c ++ rest) = .char c :: glyphsFrom 0 rest := by
  by_cases hc : c.toNat < 128
  · have hbyte : (UInt8.ofNat c.toNat).toNat = c.toNat := toNat_ofNat (by omega)
    have hascii : UInt8.ofNat c.toNat < 128 := by
      rw [UInt8.lt_iff_toNat_lt, hbyte]
      exact hc
    rw [encode_of_lt hc, List.singleton_append, glyphsFrom, if_pos hascii, hbyte, Char.ofNat_toNat]
  · obtain ⟨b, tail, hencode, hlong, hdecode⟩ := decodeLong_encode (Nat.le_of_not_lt hc)
    have hfirst : ¬ b < 128 := UInt8.not_lt.2 (hlong b List.mem_cons_self)
    rw [hencode, List.cons_append, glyphsFrom, if_neg hfirst, hdecode rest]
    dsimp only
    rw [glyphsFrom_append]

/-- The bytes of characters are decoded to these characters. -/
theorem glyphs_flatMap_encode (cs : List Char) :
    glyphs (cs.flatMap String.utf8EncodeChar) = cs.map .char := by
  rw [glyphs]
  induction cs with
  | nil => rfl
  | cons c cs ih => rw [List.flatMap_cons, glyphsFrom_encode_append, ih, List.map_cons]

/-! ## Cutting a text -/

/-- The bytes are those of characters. -/
def IsText (bytes : List UInt8) : Prop := ∃ cs : List Char, bytes = cs.flatMap String.utf8EncodeChar

theorem isText_nil : IsText [] := ⟨[], rfl⟩

theorem isText_encode (c : Char) : IsText (String.utf8EncodeChar c) := ⟨[c], by simp⟩

theorem toNat_charOfNat {n : Nat} (hn : n.isValidChar) : (Char.ofNat n).toNat = n := by
  rw [Char.ofNat, dif_pos hn]
  rfl

theorem isText_of_lt {b : UInt8} (hb : b < 128) : IsText [b] := by
  have hlt : b.toNat < 128 := UInt8.lt_iff_toNat_lt.1 hb
  have hchar : (Char.ofNat b.toNat).toNat = b.toNat := toNat_charOfNat (.inl (by omega))
  refine ⟨[Char.ofNat b.toNat], ?_⟩
  rw [List.flatMap_singleton, encode_of_lt (by rwa [hchar]), hchar, UInt8.ofNat_toNat]

theorem IsText.append {bytes more : List UInt8} (h : IsText bytes) (h' : IsText more) :
    IsText (bytes ++ more) := by
  obtain ⟨cs, rfl⟩ := h
  obtain ⟨ds, rfl⟩ := h'
  exact ⟨cs ++ ds, List.flatMap_append.symm⟩

/-- A text can be cut at a byte below 128. -/
theorem IsText.cut {before after : List UInt8} {b : UInt8} (h : IsText (before ++ b :: after))
    (hb : b < 128) : IsText before ∧ IsText after := by
  obtain ⟨cs, hcs⟩ := h
  induction cs generalizing before with
  | nil => cases before <;> cases hcs
  | cons c cs ih =>
    rw [List.flatMap_cons] at hcs
    rcases List.append_eq_append_iff.1 hcs with ⟨more, hencode, hmore⟩ | ⟨more, hbefore, hmore⟩
    · cases more with
      | nil =>
        obtain ⟨-, hlast⟩ := @ih [] hmore
        rw [List.append_nil] at hencode
        exact ⟨hencode ▸ isText_encode c, hlast⟩
      | cons x more =>
        -- The byte is one of the first character, so it is all of it.
        obtain ⟨rfl, rfl⟩ := List.cons.inj hmore
        have hascii : c.toNat < 128 := by
          by_contra hc
          obtain ⟨_, _, hlong, hbytes, -⟩ := decodeLong_encode (Nat.le_of_not_lt hc)
          rw [← hlong, hencode] at hbytes
          exact UInt8.not_lt.2 (hbytes b (by simp)) hb
        rw [encode_of_lt hascii] at hencode
        obtain ⟨rfl, hrest⟩ : before = [] ∧ [UInt8.ofNat c.toNat] = b :: more := by
          cases before with
          | nil => exact ⟨rfl, hencode⟩
          | cons y before => simp at hencode
        obtain rfl : more = [] := (List.cons.inj hrest).2.symm
        exact ⟨isText_nil, cs, rfl⟩
    · obtain ⟨hfirst, hlast⟩ := ih hmore.symm
      rw [hbefore]
      exact ⟨(isText_encode c).append hfirst, hlast⟩

/-! ## Characters of ASCII -/

theorem toNat_lt_of_all {cs : List Char} (h : cs.all (fun c => c.toNat < 128) = true) :
    ∀ c ∈ cs, c.toNat < 128 := fun c hc => of_decide_eq_true (List.all_eq_true.1 h c hc)

theorem toNat_lt_of_isAsciiDigit {c : Char} (hc : isAsciiDigit c = true) : c.toNat < 128 := by
  simp only [isAsciiDigit, Bool.and_eq_true, decide_eq_true_eq] at hc
  have hhigh : c.toNat ≤ 57 := hc.2
  omega

theorem toNat_lt_of_hexValue? {c : Char} {n : Nat} (hn : hexValue? c = some n) : c.toNat < 128 := by
  unfold hexValue? at hn
  split at hn
  · next hdigit =>
    have hhigh : c.toNat ≤ 57 := hdigit.2
    omega
  · split at hn
    · next hlower =>
      have hhigh : c.toNat ≤ 102 := hlower.2
      omega
    · split at hn
      · next hupper =>
        have hhigh : c.toNat ≤ 70 := hupper.2
        omega
      · cases hn

end Easel.Text

namespace Easel.RawText

/-! ## Raw texts -/

theorem text_ofString (s : String) : (ofString s).text = s := by
  have hchars : s.toList.map (Text.Glyph.toChar ∘ Text.Glyph.char) = s.toList :=
    List.map_id _
  rw [text, ofString, List.map_map, hchars, String.ofList_toList]

theorem isEmpty_text (r : RawText) : r.text.isEmpty = r.isEmpty := by
  rw [Bool.eq_iff_iff, String.isEmpty_iff, text, String.ofList_eq_empty_iff, List.map_eq_nil_iff,
    isEmpty, List.isEmpty_iff]

theorem isEmpty_ofString (s : String) : (ofString s).isEmpty = s.isEmpty := by
  rw [← isEmpty_text, text_ofString]

/-- The text is one of characters. -/
def IsPlain (s : RawText) : Prop := ∃ text : String, s = ofString text

theorem isPlain_ofBytes {bytes : List UInt8} (h : Text.IsText bytes) :
    (ofBytes bytes).IsPlain := by
  obtain ⟨cs, rfl⟩ := h
  refine ⟨String.ofList cs, ?_⟩
  rw [ofBytes, Text.glyphs_flatMap_encode, ofString, String.toList_ofList]

/-- A text without blanks is not trimmed. -/
theorem trim_of_not_blank {r : RawText} (h : ∀ g ∈ r.glyphs, isBlank g = false) : r.trim = r := by
  have hkeep {gs : List Text.Glyph} (h : ∀ g ∈ gs, isBlank g = false) : gs.dropWhile isBlank = gs := by
    cases gs with
    | nil => rfl
    | cons g gs => exact List.dropWhile_cons_of_neg (by simp [h g List.mem_cons_self])
  have hback : ∀ g ∈ r.glyphs.reverse, isBlank g = false := fun g hg => h g (List.mem_reverse.1 hg)
  rw [trim, hkeep h, hkeep hback, List.reverse_reverse]

end Easel.RawText
