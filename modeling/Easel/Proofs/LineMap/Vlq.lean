import Easel.LineMap.Basic
import Easel.Proofs.Text.Utf8
import Mathlib.Data.List.GetD
import Mathlib.Tactic.Ring

/-!
# Reading numbers back

The digits of a number below `2 ^ 62` are read as that number before whatever follows them
(`Vlq.decode_encode_append`), so numbers that are written one after another are read back.  A text
cannot be read exactly if it has a byte that is no digit or ends inside a number
(`Vlq.coding_exact`).
-/

namespace Easel

namespace Vlq

/-! ## Digits -/

/-- The bytes of characters. -/
def bytesOf (cs : List Char) : List UInt8 := cs.flatMap String.utf8EncodeChar

@[simp] theorem bytesOf_append (cs ds : List Char) :
    bytesOf (cs ++ ds) = bytesOf cs ++ bytesOf ds :=
  List.flatMap_append

theorem bytes_ofString (cs : List Char) :
    (RawText.ofString (String.ofList cs)).bytes = bytesOf cs := by
  rw [RawText.bytes, RawText.ofString, String.toList_ofList, List.flatMap_map]
  rfl

/-- The byte of a digit. -/
def digitByte (d : Nat) : UInt8 := (digitChar d).toNat.toUInt8

theorem alphabet_eq : alphabet = ['A', 'B', 'C', 'D', 'E', 'F', 'G', 'H', 'I', 'J', 'K', 'L', 'M',
    'N', 'O', 'P', 'Q', 'R', 'S', 'T', 'U', 'V', 'W', 'X', 'Y', 'Z', 'a', 'b', 'c', 'd', 'e', 'f',
    'g', 'h', 'i', 'j', 'k', 'l', 'm', 'n', 'o', 'p', 'q', 'r', 's', 't', 'u', 'v', 'w', 'x', 'y',
    'z', '0', '1', '2', '3', '4', '5', '6', '7', '8', '9', '+', '/'] :=
  String.toList_ofList

theorem digit_spec : ∀ d < 64, String.utf8EncodeChar (digitChar d) = [digitByte d] ∧
    digit? (digitByte d) = some d ∧ digitByte d ≠ ','.toNat.toUInt8 ∧
    digitByte d ≠ ';'.toNat.toUInt8 := by
  simp only [digitByte, digitChar, digit?, alphabet_eq]
  decide

theorem bytesOf_digitsOf_cons {d : Nat} (hd : d < 64) (cs : List Char) :
    bytesOf (digitChar d :: cs) = digitByte d :: bytesOf cs := by
  rw [bytesOf, List.flatMap_cons, (digit_spec d hd).1]
  rfl

/-- The digits of a number are read after the digits before them, whatever follows. -/
theorem decodeFrom_digitsOf {k n : Nat} (hn : n < 32 ^ (k + 1)) (place pending : Nat)
    (rest : List UInt8) :
    decodeFrom place pending (bytesOf (digitsOf k n) ++ rest) =
      (decodeFrom 1 0 rest).map (unsigned (pending + n * place) :: ·) := by
  have last (n place pending : Nat) (hn : n < 32) :
      decodeFrom place pending (bytesOf [digitChar (n % 32)] ++ rest) =
        (decodeFrom 1 0 rest).map (unsigned (pending + n * place) :: ·) := by
    rw [Nat.mod_eq_of_lt hn, bytesOf_digitsOf_cons (by omega), List.cons_append, decodeFrom,
      (digit_spec n (by omega)).2.1]
    simp only
    rw [if_neg (by omega), Nat.mod_eq_of_lt hn]
    rfl
  induction k generalizing n place pending with
  | zero => exact last n place pending (by simpa using hn)
  | succ k ih =>
    rw [digitsOf]
    split
    · next hsmall => exact last n place pending (by omega)
    · next hlarge =>
      have hdigit : n % 32 + 32 < 64 := by omega
      have hquotient : n / 32 < 32 ^ (k + 1) := by
        rw [Nat.div_lt_iff_lt_mul (by decide), ← Nat.pow_succ]
        exact hn
      have hvalue : pending + (n % 32 + 32) % 32 * place + n / 32 * (place * 32) =
          pending + n * place := by
        have hsplit : n = n % 32 + 32 * (n / 32) := (Nat.mod_add_div n 32).symm
        have hmod : (n % 32 + 32) % 32 = n % 32 := by omega
        rw [hmod]
        conv_rhs => rw [hsplit]
        ring
      rw [bytesOf_digitsOf_cons hdigit, List.cons_append, decodeFrom, (digit_spec _ hdigit).2.1]
      simp only
      rw [if_pos (by omega), ih hquotient, hvalue]

theorem exists_digitChar_of_mem_digitsOf {k n : Nat} {c : Char} (h : c ∈ digitsOf k n) :
    ∃ d < 64, c = digitChar d := by
  induction k generalizing n with
  | zero => exact ⟨_, by omega, List.mem_singleton.1 h⟩
  | succ k ih =>
    rw [digitsOf] at h
    split at h
    · exact ⟨_, by omega, List.mem_singleton.1 h⟩
    · rcases List.mem_cons.1 h with rfl | h
      · exact ⟨_, by omega, rfl⟩
      · exact ih h

theorem separator_not_mem_digitsOf (k n : Nat) :
    ','.toNat.toUInt8 ∉ bytesOf (digitsOf k n) ∧ ';'.toNat.toUInt8 ∉ bytesOf (digitsOf k n) := by
  have hbyte {b : UInt8} (h : b ∈ bytesOf (digitsOf k n)) :
      b ≠ ','.toNat.toUInt8 ∧ b ≠ ';'.toNat.toUInt8 := by
    obtain ⟨c, hc, hb⟩ := List.mem_flatMap.1 h
    obtain ⟨d, hd, rfl⟩ := exists_digitChar_of_mem_digitsOf hc
    obtain ⟨hchar, -, hseparators⟩ := digit_spec d hd
    rw [hchar, List.mem_singleton] at hb
    exact hb ▸ hseparators
  exact ⟨fun h => (hbyte h).1 rfl, fun h => (hbyte h).2 rfl⟩

/-! ## Signed numbers -/

theorem wrap_of_lt {n : Int} (hlow : -2 ^ 63 ≤ n) (hhigh : n < 2 ^ 63) : wrap n = n := by
  refine Int.bmod_eq_of_le_mul_two ?_ ?_
  · show -((2 ^ 64 : Nat) : Int) ≤ n * 2
    omega
  · show n * 2 < ((2 ^ 64 : Nat) : Int)
    omega

theorem signed_eq {v : Int} (hlow : -2 ^ 62 < v) (hhigh : v < 2 ^ 62) :
    signed v = if v < 0 then -(2 * v) + 1 else 2 * v := by
  unfold signed
  split
  · rw [wrap_of_lt (n := -v) (by omega) (by omega), wrap_of_lt (by omega) (by omega)]
    omega
  · exact wrap_of_lt (by omega) (by omega)

/-- The sign of a number goes to its lowest bit and comes back. -/
theorem unsigned_signed {v : Int} (hlow : -2 ^ 62 < v) (hhigh : v < 2 ^ 62) :
    0 ≤ signed v ∧ (signed v).toNat < 32 ^ 14 ∧ unsigned (signed v).toNat = v := by
  rw [signed_eq hlow hhigh]
  split
  · have hcast : ((-(2 * v) + 1).toNat : Int) = -(2 * v) + 1 := Int.toNat_of_nonneg (by omega)
    refine ⟨by omega, by omega, ?_⟩
    unfold unsigned
    simp only
    rw [if_pos (by omega), hcast, wrap_of_lt (n := -(2 * v) + 1) (by omega) (by omega)]
    rw [wrap_of_lt (by omega) (by omega)]
    omega
  · have hcast : ((2 * v).toNat : Int) = 2 * v := Int.toNat_of_nonneg (by omega)
    refine ⟨by omega, by omega, ?_⟩
    unfold unsigned
    simp only
    rw [if_neg (by omega), hcast, wrap_of_lt (by omega) (by omega)]
    omega

/-- A number that is written is read back before whatever follows. -/
theorem decode_encode_append {v : Int} (hlow : -2 ^ 62 < v) (hhigh : v < 2 ^ 62)
    (rest : List UInt8) :
    decode (bytesOf (encode v) ++ rest) = (decode rest).map (v :: ·) := by
  obtain ⟨-, hsize, hvalue⟩ := unsigned_signed hlow hhigh
  rw [decode, encode, decodeFrom_digitsOf hsize, Nat.zero_add, Nat.mul_one, hvalue]
  rfl

/-- Numbers that are written one after another are read back. -/
theorem decode_flatMap_encode {vs : List Int} (hvs : ∀ v ∈ vs, -2 ^ 62 < v ∧ v < 2 ^ 62) :
    decode (bytesOf (vs.flatMap encode)) = .ok vs := by
  induction vs with
  | nil => rfl
  | cons v vs ih =>
    obtain ⟨hv, hvs⟩ := List.forall_mem_cons.1 hvs
    rw [List.flatMap_cons, bytesOf_append, decode_encode_append hv.1 hv.2, ih hvs]
    rfl

/-! ## The writing ends -/

/-- Writing a number that may be negative.  Each turn takes the lowest five bits, and marks their
digit if what is left is positive; the writing ends when nothing is left. -/
inductive Writes : Int → List Char → Prop
  | last {n : Int} (h : n / 32 = 0) : Writes n [digitChar (n % 32).toNat]
  | more {n : Int} {cs : List Char} (h : n / 32 ≠ 0) (hrest : Writes (n / 32) cs) :
      Writes n (digitChar ((n % 32).toNat + if 0 < n / 32 then 32 else 0) :: cs)

theorem Writes.ne_nil {n : Int} {cs : List Char} (h : Writes n cs) : cs ≠ [] := by
  cases h <;> exact List.cons_ne_nil _ _

/-- What is left of a negative number stays negative, so the writing never ends. -/
theorem Writes.nonneg {n : Int} {cs : List Char} (h : Writes n cs) : 0 ≤ n := by
  induction h with
  | last => omega
  | more _ _ ih => omega

theorem Writes.unique {n : Int} {cs ds : List Char} (h : Writes n cs) (h' : Writes n ds) :
    cs = ds := by
  induction h generalizing ds with
  | last hlast =>
    cases h' with
    | last => rfl
    | more hmore => exact absurd hlast hmore
  | more hmore _ ih =>
    cases h' with
    | last hlast => exact absurd hlast hmore
    | more _ hrest => rw [ih hrest]

/-- A number below `32 ^ (k + 1)` is written in at most `k + 1` turns. -/
theorem writes_digitsOf {k n : Nat} (hn : n < 32 ^ (k + 1)) : Writes n (digitsOf k n) := by
  have hlast {n : Nat} (hn : n < 32) : Writes n [digitChar (n % 32)] := .last (by omega)
  induction k generalizing n with
  | zero => exact hlast (by simpa using hn)
  | succ k ih =>
    rw [digitsOf]
    split
    · exact hlast (by omega)
    · next hlarge =>
      have hquotient : n / 32 < 32 ^ (k + 1) := by
        rw [Nat.div_lt_iff_lt_mul (by decide), ← Nat.pow_succ]
        exact hn
      have hmore : Writes n _ := .more (by omega) (ih hquotient)
      rwa [if_pos (by omega)] at hmore

theorem writes_iff {n : Int} (hlow : 0 ≤ n) (hhigh : n.toNat < 32 ^ 14) {cs : List Char} :
    Writes n cs ↔ cs = digitsOf 13 n.toNat := by
  have hwrites := writes_digitsOf hhigh
  rw [Int.toNat_of_nonneg hlow] at hwrites
  exact ⟨fun h => h.unique hwrites, fun h => h ▸ hwrites⟩

/-! ## Texts that are no numbers -/

/-- The byte is the character of a digit. -/
def IsDigit (b : UInt8) : Prop := ∃ c ∈ alphabet, b = c.toNat.toUInt8

/-- The byte is the character of a digit that is not the last of its number. -/
def Continues (b : UInt8) : Prop := ∃ c ∈ alphabet.drop 32, b = c.toNat.toUInt8

theorem getElem_alphabet {d : Nat} (hd : d < alphabet.length) : alphabet[d] = digitChar d :=
  (List.getD_eq_getElem _ _ hd).symm

theorem length_alphabet : alphabet.length = 64 := by
  rw [alphabet_eq]
  rfl

theorem mem_alphabet_of_mem_encode {v : Int} {c : Char} (h : c ∈ encode v) : c ∈ alphabet := by
  obtain ⟨d, hd, rfl⟩ := exists_digitChar_of_mem_digitsOf h
  rw [← length_alphabet] at hd
  exact getElem_alphabet hd ▸ List.getElem_mem hd

theorem digit?_eq_some_iff {b : UInt8} {d : Nat} :
    digit? b = some d ↔ d < 64 ∧ b = digitByte d := by
  refine ⟨fun h => ?_, fun ⟨hd, hb⟩ => hb ▸ (digit_spec d hd).2.1⟩
  obtain ⟨hd, hindex⟩ := Option.ite_none_right_eq_some.1 h
  obtain rfl := Option.some.inj hindex
  refine ⟨hd, ?_⟩
  rw [← length_alphabet] at hd
  have hnumber : (Char.ofNat b.toNat).toNat = b.toNat :=
    Text.toNat_charOfNat (.inl (Nat.lt_trans b.toNat_lt (by decide)))
  rw [digitByte, ← getElem_alphabet hd, List.getElem_idxOf, hnumber]
  exact UInt8.ofNat_toNat.symm

theorem exists_mem_drop_alphabet {b : UInt8} (k : Nat) :
    (∃ c ∈ alphabet.drop k, b = c.toNat.toUInt8) ↔ ∃ d, k ≤ d ∧ digit? b = some d := by
  simp only [List.mem_drop_iff_getElem, getElem_alphabet, length_alphabet, digit?_eq_some_iff]
  constructor
  · rintro ⟨_, ⟨d, hd, rfl⟩, rfl⟩
    exact ⟨k + d, by omega, by omega, rfl⟩
  · rintro ⟨d, hk, hd, rfl⟩
    refine ⟨_, ⟨d - k, by omega, rfl⟩, ?_⟩
    rw [Nat.add_sub_cancel' hk]
    rfl

theorem isDigit_iff {b : UInt8} : IsDigit b ↔ ∃ d, digit? b = some d := by
  simpa [IsDigit] using exists_mem_drop_alphabet (b := b) 0

/-- A number is unfinished after the bytes if their last digit is marked, or, where there are none,
if it was unfinished before them. -/
def Unfinished (place : Nat) (bytes : List UInt8) : Prop :=
  bytes.getLast?.elim (place ≠ 1) Continues

theorem unfinished_cons {d : Nat} {b : UInt8} (hd : digit? b = some d) (place : Nat)
    (rest : List UInt8) :
    Unfinished place (b :: rest) ↔ Unfinished (if 32 ≤ d then place * 32 else 1) rest := by
  have hcontinues : Continues b ↔ 32 ≤ d := by
    rw [Continues, exists_mem_drop_alphabet]
    simp [hd]
  unfold Unfinished
  rw [List.getLast?_cons]
  cases rest.getLast? with
  | some last => rfl
  | none =>
    rw [Option.getD_none, Option.elim_some, Option.elim_none, hcontinues]
    split <;> omega

/-- Reading fails exactly at a byte that is no digit, or at the end in the middle of a number. -/
theorem decodeFrom_eq_error_iff (place pending : Nat) (bytes : List UInt8) :
    (∃ e, decodeFrom place pending bytes = .error e) ↔
      (∃ b ∈ bytes, ¬ IsDigit b) ∨ Unfinished place bytes := by
  induction bytes generalizing place pending with
  | nil => by_cases h : place = 1 <;> simp [decodeFrom, Unfinished, h]
  | cons b rest ih =>
    rw [decodeFrom]
    cases hd : digit? b with
    | none =>
      have hb : ¬ IsDigit b := by simp [isDigit_iff, hd]
      simp [hb]
    | some d =>
      have hb : IsDigit b := isDigit_iff.2 ⟨d, hd⟩
      have hrest : (∃ b' ∈ b :: rest, ¬ IsDigit b') ↔ ∃ b' ∈ rest, ¬ IsDigit b' := by simp [hb]
      rw [unfinished_cons hd, hrest]
      by_cases hmore : 32 ≤ d
      · simp only [if_pos hmore]
        exact ih _ _
      · simp only [if_neg hmore]
        rw [← ih 1 0]
        cases decodeFrom 1 0 rest <;> simp [Except.map]

/-- Numbers strictly between `-2 ^ 62` and `2 ^ 62` are written in finitely many turns, as digits
without a separator, and read back from the digits of all of them.  A text cannot be read exactly if
it has a byte that is no digit or ends in the middle of a number. -/
theorem coding_exact :
    (∀ vs : List Int, (∀ v ∈ vs, -2 ^ 62 < v ∧ v < 2 ^ 62) →
      (∀ v ∈ vs, (∀ cs, Writes (signed v) cs ↔ cs = encode v) ∧ encode v ≠ [] ∧
        ∀ c ∈ encode v, c ∈ alphabet ∧ c ≠ ',' ∧ c ≠ ';') ∧
      decode (bytesOf (vs.flatMap encode)) = .ok vs) ∧
    ∀ bytes, (∃ e, decode bytes = .error e) ↔
      (∃ b ∈ bytes, ¬ IsDigit b) ∨ ∃ b, bytes.getLast? = some b ∧ Continues b := by
  refine ⟨fun vs hvs => ⟨fun v hv => ?_, decode_flatMap_encode hvs⟩, fun bytes => ?_⟩
  · obtain ⟨hnonneg, hsize, -⟩ := unsigned_signed (hvs v hv).1 (hvs v hv).2
    have hwrites (cs : List Char) : Writes (signed v) cs ↔ cs = encode v := writes_iff hnonneg hsize
    have hseparators : ',' ∉ alphabet ∧ ';' ∉ alphabet := by
      rw [alphabet_eq]
      decide
    refine ⟨hwrites, ((hwrites _).2 rfl).ne_nil, fun c hc => ?_⟩
    have hdigit := mem_alphabet_of_mem_encode hc
    refine ⟨hdigit, ?_, ?_⟩
    · rintro rfl
      exact hseparators.1 hdigit
    · rintro rfl
      exact hseparators.2 hdigit
  · rw [decode, decodeFrom_eq_error_iff, Unfinished]
    cases bytes.getLast? <;> simp

/-- The largest and the smallest number of the range, and zero between them.  One more than the
largest is not written in finitely many turns, and a text that ends in the middle of a number is not
read. -/
theorem coding_exact_extreme :
    let vs : List Int := [2 ^ 62 - 1, 0, -2 ^ 62 + 1]
    (∀ v ∈ vs, -2 ^ 62 < v ∧ v < 2 ^ 62) ∧ decode (bytesOf (vs.flatMap encode)) = .ok vs ∧
      Writes (signed (2 ^ 62 - 1)) (encode (2 ^ 62 - 1)) ∧ (∀ cs, ¬ Writes (signed (2 ^ 62)) cs) ∧
      ∃ e, decode [digitByte 0, digitByte 63] = .error e := by
  intro vs
  have hvs : ∀ v ∈ vs, -2 ^ 62 < v ∧ v < 2 ^ 62 := by decide
  obtain ⟨hwrites, hread⟩ := coding_exact.1 vs hvs
  refine ⟨hvs, hread, ((hwrites _ List.mem_cons_self).1 _).2 rfl, fun cs h => ?_, ?_⟩
  · exact absurd h.nonneg (by decide)
  · refine (coding_exact.2 _).2 (.inr ⟨_, rfl, '/', ?_, ?_⟩)
    · rw [alphabet_eq]
      decide
    · rw [digitByte, digitChar, alphabet_eq]
      rfl

end Vlq

end Easel
