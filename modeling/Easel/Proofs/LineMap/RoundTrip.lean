import Easel.Proofs.LineMap.Vlq

/-!
# Reading line maps back

A map that is made from entries is read back as the lines that have an entry, each with the place of
its last entry (`LineMap.lines_ofEntries`, `LineMap.lines_ofEntries_exact`).
-/

namespace Easel

namespace LineMap

open Vlq (bytesOf wrap wrap_of_lt)

/-! ## Groups -/

/-- The place is so near that the difference to another such place can be written. -/
structure Near (p : MapPlace) : Prop where
  line : -2 ^ 61 < p.line ∧ p.line < 2 ^ 61
  column : -2 ^ 61 < p.column ∧ p.column < 2 ^ 61

variable {before place : MapPlace} {entries : List (Int × MapPlace)}

theorem decode_group (hbefore : Near before) (hplace : Near place) :
    Vlq.decode (bytesOf (group before place)) =
      .ok [0, 0, place.line - before.line, place.column - before.column] := by
  obtain ⟨hl, hc⟩ := hbefore
  obtain ⟨hl', hc'⟩ := hplace
  have hline : wrap (place.line - before.line) = place.line - before.line :=
    wrap_of_lt (by omega) (by omega)
  have hcolumn : wrap (place.column - before.column) = place.column - before.column :=
    wrap_of_lt (by omega) (by omega)
  rw [group, hline, hcolumn, Vlq.bytesOf_append, Vlq.bytesOf_append, Vlq.bytesOf_append,
    List.append_assoc, List.append_assoc, Vlq.decode_encode_append (by decide) (by decide),
    Vlq.decode_encode_append (by decide) (by decide),
    Vlq.decode_encode_append (by omega) (by omega), ← List.append_nil (bytesOf _),
    Vlq.decode_encode_append (by omega) (by omega)]
  rfl

theorem separator_not_mem_group (before place : MapPlace) :
    ','.toNat.toUInt8 ∉ bytesOf (group before place) ∧
      ';'.toNat.toUInt8 ∉ bytesOf (group before place) := by
  have hdigits (v : Int) := Vlq.separator_not_mem_digitsOf 13 (Vlq.signed v).toNat
  simp only [group, Vlq.encode, Vlq.bytesOf_append, List.mem_append, not_or]
  exact ⟨⟨⟨⟨(hdigits _).1, (hdigits _).1⟩, (hdigits _).1⟩, (hdigits _).1⟩,
    ⟨⟨⟨(hdigits _).2, (hdigits _).2⟩, (hdigits _).2⟩, (hdigits _).2⟩⟩

theorem bytesOf_group_ne_nil (hbefore : Near before) (hplace : Near place) :
    bytesOf (group before place) ≠ [] := by
  intro hnil
  have hdecode := decode_group hbefore hplace
  rw [hnil] at hdecode
  cases hdecode

/-- A group leads from the place before it to its own place. -/
theorem readSegments_group (hbefore : Near before) (hplace : Near place) :
    readSegments before ((bytesOf (group before place)).splitOn ','.toNat.toUInt8) =
      .ok (place, some ⟨place.line + 1, place.column + 1⟩) := by
  have hsplit : (bytesOf (group before place)).splitOn ','.toNat.toUInt8 =
      [bytesOf (group before place)] :=
    List.splitOn_eq_singleton (separator_not_mem_group before place).1
  have hwrap {a : Int} (h : -2 ^ 61 < a ∧ a < 2 ^ 61) : wrap a = a ∧ wrap (a + 1) = a + 1 :=
    ⟨wrap_of_lt (by omega) (by omega), wrap_of_lt (by omega) (by omega)⟩
  have hmoved (a b : Int) : b + (a - b) = a := by omega
  rw [hsplit, readSegments, decode_group hbefore hplace]
  simp only [readSegments, bind, Except.bind, pure, Except.pure, hmoved, (hwrap hplace.line).1,
    (hwrap hplace.line).2, (hwrap hplace.column).1, (hwrap hplace.column).2]

/-! ## Lines -/

/-- The place of an entry, with lines and columns that count from zero. -/
def fromZero (p : MapPlace) : MapPlace := ⟨wrap (p.line - 1), wrap (p.column - 1)⟩

/-- The bytes of the groups of the lines from `line` on. -/
def segments (entries : List (Int × MapPlace)) : Nat → Nat → MapPlace → List (List UInt8)
  | 0, _, _ => []
  | count + 1, line, before =>
    match placeOf entries line with
    | none => [] :: segments entries count (line + 1) before
    | some p =>
      bytesOf (group before (fromZero p)) :: segments entries count (line + 1) (fromZero p)

theorem separator_not_mem_segments (entries : List (Int × MapPlace)) (count line : Nat)
    (before : MapPlace) :
    ∀ segment ∈ segments entries count line before, ';'.toNat.toUInt8 ∉ segment := by
  induction count generalizing line before with
  | zero => exact List.forall_mem_nil _
  | succ count ih =>
    rw [segments]
    split
    · exact List.forall_mem_cons.2 ⟨List.not_mem_nil, ih _ _⟩
    · exact List.forall_mem_cons.2 ⟨(separator_not_mem_group _ _).2, ih _ _⟩

/-- After the first line, each group stands behind a semicolon. -/
theorem bytesOf_groups (count : Nat) {line : Nat} (hline : 1 < line) (before : MapPlace) :
    bytesOf (groups entries count line before) =
      (segments entries count line before).flatMap (';'.toNat.toUInt8 :: ·) := by
  have hsemicolon : bytesOf [';'] = [';'.toNat.toUInt8] := by decide
  induction count generalizing line before with
  | zero => rfl
  | succ count ih =>
    rw [groups, segments, if_neg (by omega)]
    cases placeOf entries line with
    | none =>
      simp only
      rw [Vlq.bytesOf_append, hsemicolon, ih (Nat.lt_succ_of_lt hline), List.flatMap_cons]
    | some p =>
      simp only
      rw [Vlq.bytesOf_append, Vlq.bytesOf_append, hsemicolon]
      rw [show (⟨wrap (p.line - 1), wrap (p.column - 1)⟩ : MapPlace) = fromZero p from rfl,
        ih (Nat.lt_succ_of_lt hline), List.flatMap_cons, List.append_assoc]
      rfl

theorem splitOn_flatMap {first : List UInt8} {rest : List (List UInt8)}
    (hfirst : ';'.toNat.toUInt8 ∉ first) (hrest : ∀ s ∈ rest, ';'.toNat.toUInt8 ∉ s) :
    (first ++ rest.flatMap (';'.toNat.toUInt8 :: ·)).splitOn ';'.toNat.toUInt8 = first :: rest := by
  induction rest generalizing first with
  | nil =>
    rw [List.flatMap_nil, List.append_nil]
    exact List.splitOn_eq_singleton hfirst
  | cons s rest ih =>
    obtain ⟨hs, hrest⟩ := List.forall_mem_cons.1 hrest
    rw [List.flatMap_cons, List.cons_append,
      List.splitOn_append_cons_self_of_not_mem hfirst, ih hs hrest]

/-- The groups of a map are those of its lines. -/
theorem splitOn_groups (count : Nat) :
    (bytesOf (groups entries (count + 1) 1 ⟨0, 0⟩)).splitOn ';'.toNat.toUInt8 =
      segments entries (count + 1) 1 ⟨0, 0⟩ := by
  have hsegments := separator_not_mem_segments entries (count + 1) 1 ⟨0, 0⟩
  rw [segments] at hsegments ⊢
  rw [groups, if_pos rfl]
  revert hsegments
  cases placeOf entries ((1 : Nat) : Int) with
  | none =>
    intro hsegments
    obtain ⟨hfirst, hrest⟩ := List.forall_mem_cons.1 hsegments
    simp only
    rw [List.nil_append, bytesOf_groups count (by omega)]
    exact splitOn_flatMap hfirst hrest
  | some p =>
    intro hsegments
    obtain ⟨hfirst, hrest⟩ := List.forall_mem_cons.1 hsegments
    simp only
    rw [List.nil_append, Vlq.bytesOf_append, bytesOf_groups count (by omega)]
    exact splitOn_flatMap hfirst hrest

/-- The lines from `line` on that have an entry, each with the place of its last entry. -/
def placed (entries : List (Int × MapPlace)) (count line : Nat) : List (Nat × MapPlace) :=
  (List.range' line count).filterMap fun n : Nat => (placeOf entries n).map fun p => (n, p)

theorem readGroups_segments (hentries : ∀ e ∈ entries, -2 ^ 60 ≤ e.2.line ∧ e.2.line ≤ 2 ^ 60 ∧
      -2 ^ 60 ≤ e.2.column ∧ e.2.column ≤ 2 ^ 60) (count line : Nat) (hbefore : Near before) :
    readGroups before line (segments entries count line before) = .ok (placed entries count line) := by
  induction count generalizing line before with
  | zero => rfl
  | succ count ih =>
    rw [segments, placed, List.range'_succ, List.filterMap_cons]
    cases hplace : placeOf entries line with
    | none =>
      simp only
      rw [readGroups, ih (line + 1) hbefore]
      rfl
    | some p =>
      obtain ⟨e, hfind, rfl⟩ := Option.map_eq_some_iff.1 hplace
      have hsmall := hentries e (List.mem_reverse.1 (List.mem_of_find?_eq_some hfind))
      have hzero : fromZero e.2 = ⟨e.2.line - 1, e.2.column - 1⟩ := by
        rw [fromZero, wrap_of_lt (by omega) (by omega), wrap_of_lt (by omega) (by omega)]
      have hnear : Near (fromZero e.2) := by
        rw [hzero]
        exact ⟨⟨by show _ < e.2.line - 1; omega, by show e.2.line - 1 < _; omega⟩,
          ⟨by show _ < e.2.column - 1; omega, by show e.2.column - 1 < _; omega⟩⟩
      have hread := readSegments_group hbefore hnear
      have hfirst : (⟨(fromZero e.2).line + 1, (fromZero e.2).column + 1⟩ : MapPlace) = e.2 := by
        rw [hzero]
        simp
      rw [hfirst] at hread
      simp only
      rw [readGroups]
      · rw [hread]
        simp only
        rw [ih (line + 1) hnear]
        rfl
      · exact bytesOf_group_ne_nil hbefore hnear

/-- A map that is made from entries is read back as the lines that have an entry, each with the
place of its last entry. -/
theorem lines_ofEntries (file source : RawText) (total : Int)
    (hentries : ∀ e ∈ entries, -2 ^ 60 ≤ e.2.line ∧ e.2.line ≤ 2 ^ 60 ∧ -2 ^ 60 ≤ e.2.column ∧
      e.2.column ≤ 2 ^ 60) :
    lines (ofEntries file source entries total) = .ok (placed entries total.toNat 1) := by
  have hbytes : (ofEntries file source entries total).mappings.bytes =
      bytesOf (groups entries total.toNat 1 ⟨0, 0⟩) := Vlq.bytes_ofString _
  rw [lines, hbytes]
  cases total.toNat with
  | zero => rfl
  | succ count =>
    rw [splitOn_groups]
    exact readGroups_segments hentries (count + 1) 1 ⟨by decide, by decide⟩

/-! ## What is read back -/

/-- The last entry for the line has the place. -/
def IsLastPlace (entries : List (Int × MapPlace)) (line : Int) (place : MapPlace) : Prop :=
  ∃ before after, entries = before ++ (line, place) :: after ∧ ∀ e ∈ after, e.1 ≠ line

theorem placeOf_eq_some_iff {line : Int} :
    placeOf entries line = some place ↔ IsLastPlace entries line place := by
  constructor
  · intro h
    obtain ⟨e, hfind, rfl⟩ := Option.map_eq_some_iff.1 h
    obtain ⟨hkey, later, earlier, hsplit, hlater⟩ := List.find?_eq_some_iff_append.1 hfind
    obtain rfl : e.1 = line := beq_iff_eq.1 hkey
    refine ⟨earlier.reverse, later.reverse, ?_, ?_⟩
    · rw [← List.reverse_reverse entries, hsplit]
      simp
    · intro e' he'
      simpa using hlater e' (List.mem_reverse.1 he')
  · rintro ⟨before, after, rfl, hafter⟩
    refine Option.map_eq_some_iff.2 ⟨(line, place), List.find?_eq_some_iff_append.2
      ⟨beq_self_eq_true line, after.reverse, before.reverse, by simp, ?_⟩, rfl⟩
    intro e he
    simpa using hafter e (List.mem_reverse.1 he)

theorem mem_placed {count first line : Nat} :
    (line, place) ∈ placed entries count first ↔
      first ≤ line ∧ line < first + count ∧ placeOf entries line = some place := by
  simp only [placed, List.mem_filterMap, List.mem_range'_1, Option.map_eq_some_iff, Prod.mk.injEq]
  constructor
  · rintro ⟨n, ⟨hfirst, hlast⟩, p, hplace, rfl, rfl⟩
    exact ⟨hfirst, hlast, hplace⟩
  · rintro ⟨hfirst, hlast, hplace⟩
    exact ⟨line, ⟨hfirst, hlast⟩, place, hplace, rfl, rfl⟩

theorem pairwise_placed (entries : List (Int × MapPlace)) (count first : Nat) :
    (placed entries count first).Pairwise fun a b => a.1 < b.1 := by
  refine List.Pairwise.filterMap _ ?_ List.pairwise_lt_range'
  intro n n' hlt a ha b hb
  obtain ⟨p, -, rfl⟩ := Option.map_eq_some_iff.1 ha
  obtain ⟨q, -, rfl⟩ := Option.map_eq_some_iff.1 hb
  exact hlt

/-- A map made from entries in any order can be read, and what is read is one place for each line of
the script that has an entry: that of its last entry. -/
theorem lines_ofEntries_exact (file source : RawText) (entries : List (Int × MapPlace)) (total : Int)
    (hentries : ∀ e ∈ entries, e.2.line.natAbs ≤ 2 ^ 60 ∧ e.2.column.natAbs ≤ 2 ^ 60) :
    ∃ ls, lines (ofEntries file source entries total) = .ok ls ∧
      (ls.Pairwise fun a b => a.1 < b.1) ∧
      ∀ (line : Nat) (place : MapPlace), (line, place) ∈ ls ↔
        1 ≤ line ∧ (line : Int) ≤ total ∧ IsLastPlace entries line place := by
  have hsmall : ∀ e ∈ entries, -2 ^ 60 ≤ e.2.line ∧ e.2.line ≤ 2 ^ 60 ∧ -2 ^ 60 ≤ e.2.column ∧
      e.2.column ≤ 2 ^ 60 := by
    intro e he
    have := hentries e he
    omega
  refine ⟨_, lines_ofEntries file source total hsmall, pairwise_placed _ _ _, fun line place => ?_⟩
  rw [mem_placed, placeOf_eq_some_iff]
  have hbound : 1 ≤ line ∧ line < 1 + total.toNat ↔ 1 ≤ line ∧ (line : Int) ≤ total := by omega
  rw [← and_assoc, hbound, and_assoc]

/-- Places as far apart as can be, a line with two entries, and lines that the script does not
have. -/
theorem lines_ofEntries_exact_scattered :
    let entries : List (Int × MapPlace) := [(3, ⟨5, 2⟩), (1, ⟨2 ^ 60, -2 ^ 60⟩), (0, ⟨7, 7⟩),
      (3, ⟨-2 ^ 60, 2 ^ 60⟩), (9, ⟨1, 1⟩)]
    (∀ e ∈ entries, e.2.line.natAbs ≤ 2 ^ 60 ∧ e.2.column.natAbs ≤ 2 ^ 60) ∧
      ∃ ls, lines (ofEntries "a.js" "a.mflow" entries 4) = .ok ls ∧
        (1, ⟨2 ^ 60, -2 ^ 60⟩) ∈ ls ∧ (3, ⟨-2 ^ 60, 2 ^ 60⟩) ∈ ls ∧ (3, ⟨5, 2⟩) ∉ ls ∧
        ∀ place, (9, place) ∉ ls := by
  intro entries
  have hentries : ∀ e ∈ entries, e.2.line.natAbs ≤ 2 ^ 60 ∧ e.2.column.natAbs ≤ 2 ^ 60 := by decide
  obtain ⟨ls, hlines, -, hmem⟩ := lines_ofEntries_exact "a.js" "a.mflow" entries 4 hentries
  have hlast {line : Int} {place place' : MapPlace} (h : placeOf entries line = some place') :
      IsLastPlace entries line place ↔ place' = place := by
    rw [← placeOf_eq_some_iff, h, Option.some_inj]
  have hthree : placeOf entries (3 : Nat) = some ⟨-2 ^ 60, 2 ^ 60⟩ := by decide
  refine ⟨hentries, ls, hlines, (hmem _ _).2 ⟨by decide, by decide, ?_⟩,
    (hmem _ _).2 ⟨by decide, by decide, (hlast hthree).2 rfl⟩, ?_, ?_⟩
  · exact placeOf_eq_some_iff.1 (by decide)
  · intro h
    exact absurd ((hlast hthree).1 ((hmem _ _).1 h).2.2) (by decide)
  · intro place h
    exact absurd ((hmem _ _).1 h).2.1 (by decide)

end LineMap

end Easel
