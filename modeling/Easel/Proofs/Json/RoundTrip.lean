import Easel.Json.Value
import Easel.Proofs.Json.Reader
import Mathlib.Algebra.Ring.Int.Defs
import Mathlib.Algebra.Ring.Nat
import Mathlib.Data.List.DropRight

/-!
# Reading back what is written

Before whatever follows, a string, a truth value and a number that fits into 64 bits are read back
as they were written (`string_pretty`, `bool_pretty`, `int_pretty`).  An object changes a record as
its members do, one after the other (`object_pretty`).
-/

namespace Easel.Json

open Text

/-! ## Texts as documents -/

/-- The bytes of characters as the characters of the same numbers. -/
def spelled (cs : List Char) : List Char := shown (cs.flatMap String.utf8EncodeChar)

theorem source_toUTF8 (s : String) : source s.toUTF8 = spelled s.toList :=
  congrArg shown (toList_toUTF8 s)

theorem spelled_append (cs ds : List Char) : spelled (cs ++ ds) = spelled cs ++ spelled ds := by
  rw [spelled, List.flatMap_append, shown, List.map_append]
  rfl

theorem spelled_cons (c : Char) (cs : List Char) :
    spelled (c :: cs) = shown (String.utf8EncodeChar c) ++ spelled cs := by
  rw [spelled, List.flatMap_cons, shown, List.map_append]
  rfl

theorem spelled_cons_of_lt {c : Char} (hc : c.toNat < 128) (cs : List Char) :
    spelled (c :: cs) = c :: spelled cs := by
  rw [spelled_cons, encode_of_lt hc, shown, List.map_singleton, toNat_ofNat (by omega),
    Char.ofNat_toNat, List.singleton_append]

/-- Characters of ASCII are spelled as they are. -/
theorem spelled_of_lt {cs : List Char} (h : ∀ c ∈ cs, c.toNat < 128) : spelled cs = cs := by
  induction cs with
  | nil => rfl
  | cons c cs ih =>
    obtain ⟨hc, hcs⟩ := List.forall_mem_cons.1 h
    rw [spelled_cons_of_lt hc, ih hcs]

theorem spelled_of_all {cs : List Char} (h : cs.all (fun c => c.toNat < 128) = true) :
    spelled cs = cs := spelled_of_lt (toNat_lt_of_all h)

/-! ## Strings -/

/-- The reader passes over a byte that stands for itself. -/
theorem pieces_cons {c : Char} (hquote : c ≠ '"') (hslash : c ≠ '\\') (hzero : c ≠ terminator)
    (rest : List Char) :
    pieces (c :: rest) = (pieces rest).map fun p => (.ofChar c :: p.1, p.2) := by
  rw [pieces.eq_def]
  split
  · next heq => cases heq
  · next heq => exact absurd (List.cons.inj heq).1 hquote
  · next heq => exact absurd (List.cons.inj heq).1 hslash
  · next heq => exact absurd (List.cons.inj heq).1 hslash
  · next heq => exact absurd (List.cons.inj heq).1 hslash
  · next c' rest' _ _ _ _ heq =>
    cases heq
    rw [if_neg hzero]
    cases pieces rest <;> rfl

theorem pieces_shown {bytes : List UInt8} (h : ∀ b ∈ bytes, b ≠ 34 ∧ b ≠ 92 ∧ b ≠ 0)
    (rest : List Char) :
    pieces (shown bytes ++ rest) = (pieces rest).map fun p => (bytes.map .byte ++ p.1, p.2) := by
  induction bytes with
  | nil =>
    show pieces rest = _
    cases pieces rest <;> rfl
  | cons b bytes ih =>
    obtain ⟨⟨hquote, hslash, hzero⟩, hbytes⟩ := List.forall_mem_cons.1 h
    have hne {n : UInt8} (hn : b ≠ n) : Char.ofNat b.toNat ≠ Char.ofNat n.toNat := by
      intro heq
      have hnumber := congrArg Char.toNat heq
      rw [toNat_shown, toNat_shown] at hnumber
      exact hn (UInt8.toNat_inj.1 hnumber)
    have hpiece : Piece.ofChar (Char.ofNat b.toNat) = .byte b := by
      rw [Piece.ofChar, toNat_shown]
      exact congrArg _ UInt8.ofNat_toNat
    have hcons : shown (b :: bytes) ++ rest = Char.ofNat b.toNat :: (shown bytes ++ rest) := rfl
    rw [hcons, pieces_cons (hne hquote) (hne hslash) (hne hzero), ih hbytes, hpiece]
    cases pieces rest <;> rfl

/-- A code unit that is not the first half of a pair is a character. -/
theorem joinPairs_some {n : Nat} (hn : n < 0xd800) (ps : List Piece) :
    joinPairs (some n) ps = String.utf8EncodeChar (unitChar n) ++ joinPairs none ps := by
  cases ps with
  | nil => exact (List.append_nil _).symm
  | cons p ps =>
    cases p with
    | byte b => rfl
    | unit m =>
      have hpair : pairChar? n m = none := if_neg (by omega)
      have hunit : joinPairs (some n) (.unit m :: ps) =
          String.utf8EncodeChar (unitChar n) ++ joinPairs (some m) ps := by
        rw [joinPairs, hpair]
      exact hunit

theorem joinPairs_map_byte (bytes : List UInt8) (ps : List Piece) :
    joinPairs none (bytes.map .byte ++ ps) = bytes ++ joinPairs none ps := by
  induction bytes with
  | nil => rfl
  | cons b bytes ih => exact congrArg (b :: ·) ih

theorem hexValue?_hexDigit {n : Nat} (hn : n < 16) : hexValue? (hexDigit n) = some n := by
  revert n
  decide

theorem codeUnit_hexDigits {n : Nat} (hn : n < 0x10000) :
    ∃ a b c d, hexDigits 4 n = [a, b, c, d] ∧ codeUnit a b c d = some n := by
  refine ⟨_, _, _, _, rfl, ?_⟩
  simp only [codeUnit, hexValue?_hexDigit (Nat.mod_lt _ (by decide : 16 > 0)), Option.bind_eq_bind,
    Option.bind_some, Option.pure_def]
  congr 1
  omega

/-- Bytes of a character that needs no escape stand for themselves. -/
theorem ne_of_mem_encode {c : Char} {b : UInt8} (hb : b ∈ String.utf8EncodeChar c)
    (hquote : c ≠ '"') (hslash : c ≠ '\\') (hzero : c.toNat ≠ 0) : b ≠ 34 ∧ b ≠ 92 ∧ b ≠ 0 := by
  by_cases hc : c.toNat < 128
  · rw [encode_of_lt hc, List.mem_singleton] at hb
    subst hb
    have hne {d : Char} (hd : d.toNat < 256) (hne : c ≠ d) :
        UInt8.ofNat c.toNat ≠ UInt8.ofNat d.toNat := by
      intro heq
      have hnumber := congrArg UInt8.toNat heq
      rw [toNat_ofNat (by omega), toNat_ofNat hd] at hnumber
      exact hne (Char.toNat_inj.1 hnumber)
    refine ⟨hne (d := '"') (by decide) hquote, hne (d := '\\') (by decide) hslash, ?_⟩
    exact hne (d := '\x00') (by decide) fun heq => hzero (heq ▸ rfl)
  · obtain ⟨first, tail, hencode, hlong, -⟩ := decodeLong_encode (Nat.le_of_not_lt hc)
    rw [hencode] at hb
    have hb := hlong b hb
    rw [UInt8.le_iff_toNat_le] at hb
    refine ⟨?_, ?_, ?_⟩ <;>
    · rintro rfl
      exact absurd hb (by decide)

theorem pieces_shortEscape {c e : Char} (he : shortEscape c = some e) (rest : List Char) :
    pieces ('\\' :: c :: rest) = (pieces rest).map fun p => (.ofChar e :: p.1, p.2) := by
  rw [pieces.eq_def]
  split
  · next heq => cases heq
  · next heq => exact absurd (List.cons.inj heq).1 (by decide)
  · next heq =>
    cases heq
    cases he
  · next heq =>
    cases heq
    rw [he]
    cases pieces rest <;> rfl
  · next heq => cases heq
  · next hescape _ heq =>
    cases heq
    exact absurd rfl (hescape c rest rfl)

theorem pieces_unit {n : Nat} (hn : n < 0x10000) (rest : List Char) :
    pieces ('\\' :: 'u' :: (hexDigits 4 n ++ rest)) =
      (pieces rest).map fun p => (.unit n :: p.1, p.2) := by
  obtain ⟨a, b, c, d, hdigits, hunit⟩ := codeUnit_hexDigits hn
  rw [hdigits]
  show pieces ('\\' :: 'u' :: a :: b :: c :: d :: rest) = _
  rw [pieces, hunit]
  cases pieces rest <;> rfl

/-- The characters are read as one character of a string. -/
def Spells (written : List Char) (c : Char) : Prop :=
  ∃ qs, (∀ ps, joinPairs none (qs ++ ps) = String.utf8EncodeChar c ++ joinPairs none ps) ∧
    ∀ rest, pieces (spelled written ++ rest) = (pieces rest).map fun p => (qs ++ p.1, p.2)

theorem spells_shortEscape {c e : Char} (he : shortEscape c = some e) : Spells ['\\', c] e := by
  obtain ⟨hc, hascii⟩ := toNat_lt_of_shortEscape he
  refine ⟨[.ofChar e], fun ps => ?_, fun rest => ?_⟩
  · rw [encode_of_lt hascii]
    rfl
  · rw [spelled_of_lt (by simpa using hc)]
    exact pieces_shortEscape he rest

theorem spells_unit {c : Char} (hc : c.toNat < 0xd800) :
    Spells ('\\' :: 'u' :: hexDigits 4 c.toNat) c := by
  refine ⟨[.unit c.toNat], fun ps => ?_, fun rest => ?_⟩
  · have hchar : unitChar c.toNat = c := by
      rw [unitChar, if_pos (show c.toNat.isValidChar from c.valid), Char.ofNat_toNat]
    refine (joinPairs_some hc ps).trans ?_
    rw [hchar]
  · obtain ⟨w, x, y, z, hdigits, hcode⟩ := codeUnit_hexDigits (n := c.toNat) (by omega)
    obtain ⟨hw, hx, hy, hz⟩ := toNat_lt_of_codeUnit hcode
    rw [spelled_of_lt (by simp [hdigits, hw, hx, hy, hz])]
    exact pieces_unit (by omega) rest

theorem spells_self {c : Char} (hquote : c ≠ '"') (hslash : c ≠ '\\') (hzero : c.toNat ≠ 0) :
    Spells [c] c := by
  refine ⟨(String.utf8EncodeChar c).map .byte, joinPairs_map_byte _, fun rest => ?_⟩
  rw [spelled, List.flatMap_singleton]
  exact pieces_shown (fun b hb => ne_of_mem_encode hb hquote hslash hzero) rest

/-- A character of a string is read back, however it is written. -/
theorem spells_escapeChar (c : Char) : Spells (escapeChar c) c := by
  unfold escapeChar
  split_ifs with hquote hslash hfeed hreturn htab hescaped
  · subst hquote
    exact spells_shortEscape rfl
  · subst hslash
    exact spells_shortEscape rfl
  · subst hfeed
    exact spells_shortEscape rfl
  · subst hreturn
    exact spells_shortEscape rfl
  · subst htab
    exact spells_shortEscape rfl
  · refine spells_unit ?_
    rcases hescaped with hcontrol | rfl | rfl | rfl | hline | hparagraph
    · omega
    · decide
    · decide
    · decide
    · omega
    · omega
  · refine spells_self hquote hslash fun hzero => hescaped (.inl ?_)
    omega

theorem pieces_quoted (cs rest : List Char) :
    ∃ ps, pieces (spelled (cs.flatMap escapeChar) ++ '"' :: rest) = some (ps, rest) ∧
      joinPairs none ps = cs.flatMap String.utf8EncodeChar := by
  induction cs with
  | nil => exact ⟨[], rfl, rfl⟩
  | cons c cs ih =>
    obtain ⟨ps, hps, hjoin⟩ := ih
    obtain ⟨qs, hqs, hread⟩ := spells_escapeChar c
    refine ⟨qs ++ ps, ?_, ?_⟩
    · rw [List.flatMap_cons, spelled_append, List.append_assoc, hread, hps]
      rfl
    · rw [hqs, hjoin, List.flatMap_cons]

/-- A string of characters is read back before whatever follows. -/
theorem string_pretty (old : RawText) {t : RawText} (ht : t.IsPlain) (depth : Nat)
    (rest : List Char) :
    string old (spelled ((Value.string t).pretty depth).toList ++ rest) = some (t, rest) := by
  obtain ⟨s, rfl⟩ := ht
  have hglyphs : (RawText.ofString s).glyphs.flatMap escapeGlyph = s.toList.flatMap escapeChar := by
    rw [RawText.ofString, List.flatMap_map]
    rfl
  obtain ⟨ps, hps, hjoin⟩ := pieces_quoted s.toList rest
  have hquote : spelled ['"'] = ['"'] := spelled_of_all (by decide)
  have htext : spelled (quoted s).toList ++ rest =
      '"' :: (spelled (s.toList.flatMap escapeChar) ++ '"' :: rest) := by
    rw [quoted, String.toList_ofList, hglyphs, ← List.singleton_append, spelled_append,
      spelled_append, hquote]
    simp
  rw [Value.pretty, htext]
  show stringTail _ = _
  rw [stringTail, hps, Option.map_some]
  dsimp only
  rw [hjoin, RawText.ofBytes, glyphs_flatMap_encode]
  rfl

/-! ## Truth values and numbers -/

theorem bool_pretty (old b : Bool) (depth : Nat) (rest : List Char) :
    bool old (spelled ((Value.bool b).pretty depth).toList ++ rest) = some (b, rest) := by
  rw [Value.pretty]
  cases b with
  | true =>
    rw [if_pos rfl, spelled_of_all (by decide)]
    rfl
  | false =>
    rw [if_neg (by decide), spelled_of_all (by decide)]
    rfl

theorem exists_toDigits_cons {n : Nat} (hn : 0 < n) :
    ∃ d ds, Nat.toDigits 10 n = d :: ds ∧ d ≠ '0' := by
  have hdigit : ∀ n < 10, 0 < n → Nat.digitChar n ≠ '0' := by decide
  induction n using Nat.strongRecOn with
  | ind n ih =>
    rw [Nat.toDigits_eq_if (by decide)]
    split
    · next hlt => exact ⟨_, [], rfl, hdigit n hlt hn⟩
    · next hge =>
      obtain ⟨d, ds, hdigits, hd⟩ := ih (n / 10) (by omega) (by omega)
      exact ⟨d, ds ++ [Nat.digitChar (n % 10)], by rw [hdigits]; rfl, hd⟩

theorem digits?_toDigits {n : Nat} (hn : n < 10 ^ 19) : digits? (Nat.toDigits 10 n) = some n := by
  have hlength : (Nat.toDigits 10 n).length ≤ 19 :=
    (Nat.length_toDigits_le_iff (by decide) (by decide)).2 hn
  have hvalue := Nat.ofDigitChars_ten_toDigits (n := n)
  simp only [Nat.ofDigitChars_eq_foldl, Nat.mul_comm] at hvalue
  rw [digits?, if_pos hlength]
  exact congrArg some hvalue

/-- The text does not start with a digit. -/
def Ends (cs : List Char) : Prop := ∀ c ∈ cs.head?, isAsciiDigit c = false

theorem digits_toDigits_append (n : Nat) {rest : List Char} (hrest : Ends rest) :
    (Nat.toDigits 10 n ++ rest).takeWhile isAsciiDigit = Nat.toDigits 10 n ∧
      (Nat.toDigits 10 n ++ rest).dropWhile isAsciiDigit = rest := by
  have hdigits : ∀ c ∈ Nat.toDigits 10 n, isAsciiDigit c = true := fun c hc =>
    Nat.isDigit_of_mem_toDigits (by decide) (by decide) hc
  have hnone : rest.takeWhile isAsciiDigit = [] ∧ rest.dropWhile isAsciiDigit = rest := by
    cases rest with
    | nil => exact ⟨rfl, rfl⟩
    | cons c rest =>
      have hc : isAsciiDigit c = false := hrest c rfl
      simp [hc]
  rw [List.takeWhile_append_of_pos hdigits, List.dropWhile_append_of_pos hdigits, hnone.1, hnone.2,
    List.append_nil]
  exact ⟨rfl, rfl⟩

theorem spelled_toDigits (n : Nat) : spelled (Nat.toDigits 10 n) = Nat.toDigits 10 n :=
  spelled_of_lt fun _ hc =>
    toNat_lt_of_isAsciiDigit (Nat.isDigit_of_mem_toDigits (by decide) (by decide) hc)

theorem bounds_of_fits {n : Int} (hn : Fits n) : -2 ^ 63 ≤ n ∧ n < 2 ^ 63 := by
  have hlow := Int.le_bmod (x := n) (m := Nat.pow 2 64) (by decide)
  have hhigh := Int.bmod_lt (x := n) (m := Nat.pow 2 64) (by decide)
  have hmodulus : ((Nat.pow 2 64 : Nat) : Int) = 18446744073709551616 := rfl
  rw [show Int.bmod n (Nat.pow 2 64) = n from hn] at hlow hhigh
  omega

/-- A number that starts with a digit other than zero is read as far as its digits go. -/
theorem int_digit (old : Int) {d : Char} {ds : List Char} (hd : isAsciiDigit d = true)
    (hzero : d ≠ '0') :
    int old (d :: ds) = (digits? ((d :: ds).takeWhile isAsciiDigit)).map fun n =>
      (wrap n, (d :: ds).dropWhile isAsciiDigit) := by
  have hne {c : Char} (hc : isAsciiDigit c = false) : d ≠ c := by
    rintro rfl
    rw [hc] at hd
    cases hd
  have hspace : skipSpace (d :: ds) = d :: ds := by
    have hfirst : isSpace d = false := by
      simp [isSpace, hne (c := ' ') (by decide), hne (c := '\t') (by decide),
        hne (c := '\n') (by decide), hne (c := '\r') (by decide)]
    exact List.dropWhile_cons_of_neg (by simp [hfirst])
  unfold int
  rw [hspace]
  split
  · next heq => exact absurd (List.cons.inj heq).1 (hne (by decide))
  · next heq => exact absurd (List.cons.inj heq).1 hzero
  · next heq => exact absurd (List.cons.inj heq).1 (hne (by decide))
  · split
    · next heq =>
      rw [List.takeWhile_cons_of_pos hd] at heq
      cases heq
    · rfl

theorem int_minus (old : Int) (cs : List Char) :
    int old ('-' :: cs) = (digits? (cs.takeWhile isAsciiDigit)).map fun n =>
      (wrap (-(wrap n)), cs.dropWhile isAsciiDigit) := rfl

/-- A number that fits into 64 bits is read back before what is no digit. -/
theorem int_pretty (old : Int) {n : Int} (hn : Fits n) (depth : Nat) {rest : List Char}
    (hrest : Ends rest) :
    int old (spelled ((Value.int n).pretty depth).toList ++ rest) = some (n, rest) := by
  obtain ⟨hlow, hhigh⟩ := bounds_of_fits hn
  rw [Value.pretty]
  cases n with
  | ofNat m =>
    have hm : (m : Int) < 2 ^ 63 := hhigh
    have htext : (toString (Int.ofNat m)).toList = Nat.toDigits 10 m := by
      show (Nat.repr m).toList = _
      rw [Nat.repr_eq_ofList_toDigits, String.toList_ofList]
    rw [htext, spelled_toDigits]
    rcases Nat.eq_zero_or_pos m with rfl | hpos
    · rfl
    · obtain ⟨d, ds, hdigits, hzero⟩ := exists_toDigits_cons hpos
      have hd : isAsciiDigit d = true :=
        Nat.isDigit_of_mem_toDigits (n := m) (by decide) (by decide) (hdigits ▸ List.mem_cons_self)
      obtain ⟨htake, hdrop⟩ := digits_toDigits_append m hrest
      rw [hdigits, List.cons_append] at htake hdrop
      rw [hdigits, List.cons_append, int_digit old hd hzero, htake, hdrop, ← hdigits,
        digits?_toDigits (by omega)]
      exact congrArg (fun n => some (n, rest)) hn
  | negSucc m =>
    have htext : (toString (Int.negSucc m)).toList = '-' :: Nat.toDigits 10 (m + 1) := by
      show ("-" ++ Nat.repr (m + 1)).toList = _
      simp only [String.toList_append, Nat.repr_eq_ofList_toDigits, String.toList_ofList]
      rfl
    have hspelled : spelled ('-' :: Nat.toDigits 10 (m + 1)) = '-' :: Nat.toDigits 10 (m + 1) := by
      rw [← List.singleton_append, spelled_append, spelled_toDigits, spelled_of_all (by decide)]
    obtain ⟨htake, hdrop⟩ := digits_toDigits_append (m + 1) hrest
    rw [htext, hspelled]
    rw [List.cons_append, int_minus, htake, hdrop, digits?_toDigits (by omega)]
    have hvalue : wrap (-wrap ((m + 1 : Nat) : Int)) = Int.negSucc m := Int.bmod_neg_bmod.trans hn
    exact congrArg (fun n => some (n, rest)) hvalue

/-! ## Objects -/

variable {σ : Type} {fields : List (Field σ)} {depth : Nat}

theorem skipSpace_append {blank : List Char} (hblank : ∀ c ∈ blank, isSpace c = true)
    (cs : List Char) : skipSpace (blank ++ cs) = skipSpace cs :=
  List.dropWhile_append_of_pos hblank

/-- A member changes the record, and what follows its value says how the object goes on. -/
theorem members_member {blank name value more : List Char} {f : Field σ} {r r' : σ} {n level : Nat}
    (hblank : ∀ c ∈ blank, isSpace c = true)
    (hkey : keyTail fields 0 0 (name ++ ':' :: value) = some (some f, ':' :: value))
    (hread : f.read r value = some (r', more)) :
    members level fields (n + 1) r (blank ++ '"' :: (name ++ ':' :: value)) =
      match skipSpace more with
      | '}' :: rest => some (r', rest)
      | ',' :: rest => members level fields n r' rest
      | _ => none := by
  have hquote : skipSpace (blank ++ '"' :: (name ++ ':' :: value)) =
      '"' :: (name ++ ':' :: value) := skipSpace_append hblank _
  have hcolon : skipSpace (':' :: value) = ':' :: value := rfl
  rw [members, hquote]
  simp only [hkey, Option.bind_eq_bind, Option.bind_some, hcolon, hread]
  rfl

/-- A member that is written changes a record into another, before what is no digit. -/
def MemberRead (fields : List (Field σ)) (depth : Nat) (member : String × Value) (r r' : σ) :
    Prop :=
  ∃ f name, spelled (quoted member.1).toList = '"' :: name ∧
    (∀ rest, keyTail fields 0 0 (name ++ rest) = some (some f, rest)) ∧
    ∀ rest, Ends rest →
      f.read r (' ' :: (spelled (member.2.pretty depth).toList ++ rest)) = some (r', rest)

/-- Members that are written change a record into another, one after the other. -/
inductive MembersRead (fields : List (Field σ)) (depth : Nat) : List (String × Value) → σ → σ → Prop
  | nil (r : σ) : MembersRead fields depth [] r r
  | cons {member : String × Value} {members : List (String × Value)} {r r' r'' : σ} :
    MemberRead fields depth member r r' → MembersRead fields depth members r' r'' →
      MembersRead fields depth (member :: members) r r''

theorem MembersRead.append {ms more : List (String × Value)} {r r' r'' : σ}
    (h : MembersRead fields depth ms r r') (hmore : MembersRead fields depth more r' r'') :
    MembersRead fields depth (ms ++ more) r r'' := by
  induction h with
  | nil => exact hmore
  | cons hmember _ ih => exact .cons hmember (ih hmore)

/-- A member that is written for a field sets this field, if its value is read back. -/
theorem MembersRead.of_field {α : Type} {key : String} {reader : α → Reader α} {get : σ → α}
    {set : σ → α → σ} {value : Value} {r : σ} {v : α}
    (hname : spelled (quoted key).toList = '"' :: (key.toList ++ ['"']))
    (hkey : ∀ rest, keyTail fields 0 0 (key.toList ++ ['"'] ++ rest) =
      some (some (.of key reader get set), rest))
    (hspace : ∀ old cs, reader old (' ' :: cs) = reader old cs)
    (hread : ∀ rest, Ends rest →
      reader (get r) (spelled (value.pretty depth).toList ++ rest) = some (v, rest)) :
    MembersRead fields depth [(key, value)] r (set r v) := by
  refine .cons ⟨_, _, hname, hkey, fun rest hrest => ?_⟩ (.nil _)
  have hvalue := (hspace (get r) _).trans (hread rest hrest)
  exact congrArg (Option.map fun p => (set r p.1, p.2)) hvalue

/-- The line of a member. -/
def line (depth : Nat) (member : String × Value) : List Char :=
  (newLine depth).toList ++
    ((quoted member.1).toList ++ ':' :: ' ' :: (member.2.pretty depth).toList)

/-- The lines of members, with a comma after all but the last. -/
def lines (depth : Nat) (member : String × Value) (more : List (String × Value)) : List Char :=
  line depth member ++ more.flatMap fun m => ',' :: line depth m

theorem isSpace_of_mem_newLine (depth : Nat) : ∀ c ∈ (newLine depth).toList, isSpace c = true := by
  intro c hc
  simp only [newLine, String.toList_append, String.toList_ofList, List.mem_append,
    List.mem_replicate] at hc
  rcases hc with hfeed | ⟨-, rfl⟩
  · rw [List.mem_singleton.1 hfeed]
    rfl
  · rfl

theorem spelled_newLine (depth : Nat) : spelled (newLine depth).toList = (newLine depth).toList :=
  spelled_of_lt fun c hc => (of_isSpace (isSpace_of_mem_newLine depth c hc)).1

theorem spelled_line {member : String × Value} {name : List Char}
    (hname : spelled (quoted member.1).toList = '"' :: name) :
    spelled (line depth member) = (newLine depth).toList ++
      '"' :: (name ++ ':' :: ' ' :: spelled (member.2.pretty depth).toList) := by
  rw [line, spelled_append, spelled_append, spelled_newLine, hname, spelled_cons_of_lt (by decide),
    spelled_cons_of_lt (by decide), List.cons_append]

theorem members_line {member : String × Value} {r r' : σ} (h : MemberRead fields depth member r r')
    (n level : Nat) {after : List Char} (hafter : Ends after) :
    members level fields (n + 1) r (spelled (line depth member) ++ after) =
      match skipSpace after with
      | '}' :: rest => some (r', rest)
      | ',' :: rest => members level fields n r' rest
      | _ => none := by
  obtain ⟨f, name, hname, hkey, hread⟩ := h
  have htext : spelled (line depth member) ++ after = (newLine depth).toList ++ '"' ::
      (name ++ ':' :: ' ' :: (spelled (member.2.pretty depth).toList ++ after)) := by
    rw [spelled_line hname]
    simp
  rw [htext]
  exact members_member (isSpace_of_mem_newLine depth) (hkey _) (hread after hafter)

theorem ends_close {close : List Char} (hclose : ∀ c ∈ close, isSpace c = true) (rest : List Char) :
    Ends (close ++ '}' :: rest) := by
  intro c hc
  cases close with
  | nil =>
    cases hc
    rfl
  | cons d close =>
    cases hc
    exact (of_isSpace (hclose c List.mem_cons_self)).2

/-- Members on lines of their own are read one after the other. -/
theorem members_lines {member : String × Value} {more : List (String × Value)} {r r' : σ}
    (h : MembersRead fields depth (member :: more) r r') {n : Nat} (hn : more.length < n)
    {close : List Char} (hclose : ∀ c ∈ close, isSpace c = true) (level : Nat) (rest : List Char) :
    members level fields n r (spelled (lines depth member more) ++ (close ++ '}' :: rest)) =
      some (r', rest) := by
  induction more generalizing member r n with
  | nil =>
    obtain ⟨n, rfl⟩ := Nat.exists_eq_add_one_of_ne_zero (Nat.ne_of_gt hn)
    cases h with
    | cons hmember hmore =>
      cases hmore
      have hend : skipSpace (close ++ '}' :: rest) = '}' :: rest := skipSpace_append hclose _
      rw [lines, List.flatMap_nil, List.append_nil,
        members_line hmember n level (ends_close hclose rest), hend]
      rfl
  | cons next more ih =>
    obtain ⟨n, rfl⟩ := Nat.exists_eq_add_one_of_ne_zero (Nat.ne_of_gt (Nat.zero_lt_of_lt hn))
    cases h with
    | cons hmember hmore =>
      have hcomma {cs : List Char} : Ends (',' :: cs) := by
        intro c hc
        cases hc
        rfl
      rw [lines, spelled_append, List.append_assoc, List.flatMap_cons, List.cons_append,
        spelled_cons_of_lt (by decide), List.cons_append, members_line hmember n level hcomma]
      exact ih hmore (Nat.lt_of_succ_lt_succ hn)

theorem members_skipSpace (level n : Nat) (r : σ) (cs : List Char) :
    members level fields n r (skipSpace cs) = members level fields n r cs := by
  cases n with
  | zero => rfl
  | succ n =>
    have hagain : skipSpace (skipSpace cs) = skipSpace cs := List.dropWhile_idempotent _ _
    rw [members, members, hagain]

/-- An object whose first member starts with a quote. -/
theorem object_open {text tail : List Char} (htext : skipSpace text = '"' :: tail) (level : Nat)
    (r : σ) :
    object level fields r ('{' :: text) = members level fields (tail.length + 2) r text := by
  have hopen : skipSpace ('{' :: text) = '{' :: text := rfl
  rw [← members_skipSpace, htext]
  unfold object
  rw [hopen]
  split
  · next heq =>
    cases heq
    rw [htext]
    rfl
  · next heq => exact absurd (List.cons.inj heq).1 (by decide)
  · next hother _ => exact absurd rfl (hother text)

theorem intercalate_cons {α : Type} (separator first : List α) (rest : List (List α)) :
    separator.intercalate (first :: rest) = first ++ rest.flatMap (separator ++ ·) := by
  induction rest generalizing first with
  | nil => simp
  | cons next rest ih =>
    rw [List.intercalate_cons_cons, ih, List.flatMap_cons]
    simp only [List.append_assoc]

theorem map_toList_prettyMembers (ms : List (String × Value)) :
    ((Value.prettyMembers depth ms).map fun p => newLine depth ++ p).map String.toList =
      ms.map (line depth) := by
  induction ms with
  | nil => rfl
  | cons m ms ih =>
    have hline : (newLine depth ++ (quoted m.1 ++ ": " ++ m.2.pretty depth)).toList =
        line depth m := by
      simp only [line, String.toList_append, List.append_assoc]
      rfl
    rw [Value.prettyMembers, List.map_cons, List.map_cons, ih, hline, List.map_cons]

/-- An object with members has one on each line. -/
theorem toList_object_pretty (member : String × Value) (more : List (String × Value)) :
    ((Value.object (member :: more)).pretty depth).toList =
      '{' :: (lines (depth + 1) member more ++ ((newLine depth).toList ++ ['}'])) := by
  have hparts : (Value.prettyMembers (depth + 1) (member :: more)).isEmpty ≠ true := by
    rw [Value.prettyMembers]
    exact Bool.false_ne_true
  rw [Value.pretty, encloseLines, if_neg hparts]
  simp only [String.toList_append, String.toList_intercalate, map_toList_prettyMembers,
    List.map_cons, intercalate_cons, List.flatMap_map, List.append_assoc, lines]
  rfl

theorem length_le_spelled_lines (depth : Nat) (ms : List (String × Value)) :
    ms.length ≤ (spelled (ms.flatMap fun m => ',' :: line depth m)).length := by
  induction ms with
  | nil => exact Nat.zero_le _
  | cons m ms ih =>
    rw [List.flatMap_cons, List.cons_append, spelled_cons_of_lt (by decide), spelled_append,
      List.length_cons, List.length_cons, List.length_append]
    omega

/-- After the blanks before the first member there are as many characters as further members. -/
theorem skipSpace_lines {member : String × Value} {more : List (String × Value)} {r r' : σ}
    (h : MembersRead fields depth (member :: more) r r') (rest : List Char) :
    ∃ tail, skipSpace (spelled (lines depth member more) ++ rest) = '"' :: tail ∧
      more.length ≤ tail.length := by
  obtain ⟨name, hname⟩ : ∃ name, spelled (quoted member.1).toList = '"' :: name := by
    cases h with
    | cons hmember =>
      obtain ⟨-, name, hname, -⟩ := hmember
      exact ⟨name, hname⟩
  refine ⟨name ++ ':' :: ' ' :: (spelled (member.2.pretty depth).toList ++
    (spelled (more.flatMap fun m => ',' :: line depth m) ++ rest)), ?_, ?_⟩
  · rw [lines, spelled_append, spelled_line hname, List.append_assoc, List.append_assoc,
      skipSpace_append (isSpace_of_mem_newLine depth)]
    simp [skipSpace, isSpace]
  · have hlines := length_le_spelled_lines depth more
    simp only [List.length_append, List.length_cons]
    omega

/-- An object that is written changes a record as its members do. -/
theorem object_pretty {ms : List (String × Value)} {r r' : σ}
    (h : MembersRead fields (depth + 1) ms r r') (level : Nat) (rest : List Char) :
    object level fields r (spelled ((Value.object ms).pretty depth).toList ++ rest) =
      some (r', rest) := by
  cases ms with
  | nil =>
    cases h
    have htext : ((Value.object []).pretty depth).toList = ['{', '}'] := by
      rw [Value.pretty, Value.prettyMembers, encloseLines, if_pos (by decide), String.toList_append]
      rfl
    rw [htext, spelled_of_all (by decide)]
    rfl
  | cons member more =>
    have hlast : spelled ['}'] = ['}'] := spelled_of_all (by decide)
    obtain ⟨tail, hspace, hlength⟩ := skipSpace_lines h ((newLine depth).toList ++ '}' :: rest)
    rw [toList_object_pretty, spelled_cons_of_lt (by decide), spelled_append,
      spelled_append (newLine depth).toList, spelled_newLine, hlast, List.cons_append,
      List.append_assoc, List.append_assoc, List.singleton_append, object_open hspace]
    exact members_lines h (by omega) (isSpace_of_mem_newLine depth) level rest

/-! ## Members by their kind -/

section Fields

variable {key : String} {r : σ} {τ : Type} {ms : List (String × Value)} {v : τ} {level : Nat}
  (hname : spelled (quoted key).toList = '"' :: (key.toList ++ ['"']))
include hname

theorem MembersRead.string {get : σ → RawText} (set : σ → RawText → σ)
    (hkey : ∀ rest, keyTail fields 0 0 (key.toList ++ ['"'] ++ rest) =
      some (some (.of key Json.string get set), rest)) {s : RawText} (hs : s.IsPlain) :
    MembersRead fields depth [(key, .string s)] r (set r s) :=
  .of_field hname hkey (fun _ _ => rfl) fun rest _ => string_pretty _ hs depth rest

theorem MembersRead.int {get : σ → Int} (set : σ → Int → σ)
    (hkey : ∀ rest, keyTail fields 0 0 (key.toList ++ ['"'] ++ rest) =
      some (some (.of key Json.int get set), rest)) {n : Int} (hn : Fits n) :
    MembersRead fields depth [(key, .int n)] r (set r n) :=
  .of_field hname hkey (fun _ _ => rfl) fun _ hrest => int_pretty _ hn depth hrest

theorem MembersRead.bool {get : σ → Bool} (set : σ → Bool → σ)
    (hkey : ∀ rest, keyTail fields 0 0 (key.toList ++ ['"'] ++ rest) =
      some (some (.of key Json.bool get set), rest)) (b : Bool) :
    MembersRead fields depth [(key, .bool b)] r (set r b) :=
  .of_field hname hkey (fun _ _ => rfl) fun rest _ => bool_pretty _ b depth rest

theorem MembersRead.object {inner : List (Field τ)} {get : σ → τ} (set : σ → τ → σ)
    (hkey : ∀ rest, keyTail fields 0 0 (key.toList ++ ['"'] ++ rest) =
      some (some (.of key (Json.object level inner) get set), rest))
    (hread : MembersRead inner (depth + 1) ms (get r) v) :
    MembersRead fields depth [(key, .object ms)] r (set r v) :=
  .of_field hname hkey (fun _ _ => rfl) fun rest _ => object_pretty hread level rest

end Fields

end Easel.Json
