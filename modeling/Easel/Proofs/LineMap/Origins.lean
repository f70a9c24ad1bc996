import Easel.Compilation
import Easel.Proofs.LineMap.RoundTrip
import Easel.Proofs.Script.Rows

/-!
# The lines of a script in its map

The map of a script is read back as the lines that have an origin, with their origins
(`lines_ofOrigins`), as long as every line is written as one row and the places are not too far.
-/

namespace Easel

open Script

/-- A place as a map holds it. -/
def Position.toMap (p : Position) : MapPlace := ⟨p.line, p.column⟩

namespace LineMap

/-- The entries for the origins of lines, numbered from `k` on. -/
def entriesFrom (k : Nat) (ls : List Line) : List (Int × MapPlace) :=
  ((ls.zipIdx k).filterMap fun (l, n) => l.origin.map fun p => (n, p)).map fun (n, p) =>
    ((n : Int), p.toMap)

theorem entriesFrom_cons (k : Nat) (l : Line) (ls : List Line) :
    entriesFrom k (l :: ls) =
      (l.origin.toList.map fun p => ((k : Int), p.toMap)) ++ entriesFrom (k + 1) ls := by
  cases h : l.origin <;> simp [entriesFrom, h]

theorem find?_head_eq_none {k n : Nat} (h : n ≠ k) (l : Line) :
    ((l.origin.toList.map fun p => ((k : Int), p.toMap)).reverse.find? fun e => e.1 == (n : Int)) =
      none := by
  have hkey : ((k : Int) == (n : Int)) = false := by
    rw [beq_eq_false_iff_ne]
    omega
  cases l.origin <;> simp [hkey]

/-- The entry of a line is its origin. -/
theorem placeOf_entriesFrom (k n : Nat) (ls : List Line) :
    placeOf (entriesFrom k ls) n =
      if n < k then none else (ls[n - k]?.bind Line.origin).map Position.toMap := by
  induction ls generalizing k with
  | nil => simp [entriesFrom, placeOf]
  | cons l ls ih =>
    have hrest := ih (k + 1)
    rw [placeOf] at hrest
    rw [placeOf, entriesFrom_cons, List.reverse_append, List.find?_append, Option.map_or, hrest]
    -- the head has the number `k`, and all others have larger ones
    rcases Nat.lt_trichotomy n k with hlt | rfl | hgt
    · rw [if_pos (by omega), if_pos hlt, find?_head_eq_none (by omega)]
      rfl
    · rw [if_pos (by omega), if_neg (by omega), Nat.sub_self]
      cases horigin : l.origin <;> simp [horigin]
    · have hindex : n - k = n - (k + 1) + 1 := by omega
      rw [if_neg (by omega), if_neg (by omega), find?_head_eq_none (by omega), hindex,
        List.getElem?_cons_succ]
      exact Option.or_none

/-- The lines that have an entry are those that have an origin. -/
theorem placed_entriesFrom (ls : List Line) :
    placed (entriesFrom 1 ls) ls.length 1 =
      (ls.zipIdx 1).filterMap fun (l, n) => l.origin.map fun p => (n, p.toMap) := by
  have step (k : Nat) (ms : List Line) :
      (List.range' k ms.length).filterMap (fun n : Nat =>
        (ms[n - k]?.bind Line.origin).map fun p => (n, p.toMap)) =
      (ms.zipIdx k).filterMap fun (l, n) => l.origin.map fun p => (n, p.toMap) := by
    induction ms generalizing k with
    | nil => rfl
    | cons l ms ih =>
      have hshift : (List.range' (k + 1) ms.length).filterMap (fun n : Nat =>
          ((l :: ms)[n - k]?.bind Line.origin).map fun p => (n, p.toMap)) =
          (List.range' (k + 1) ms.length).filterMap fun n : Nat =>
            (ms[n - (k + 1)]?.bind Line.origin).map fun p => (n, p.toMap) := by
        refine List.filterMap_congr fun n hn => ?_
        have hindex : n - k = n - (k + 1) + 1 := by
          have := (List.mem_range'_1.1 hn).1
          omega
        rw [hindex, List.getElem?_cons_succ]
      rw [List.length_cons, List.range'_succ, List.zipIdx_cons, List.filterMap_cons,
        List.filterMap_cons, hshift, ih (k + 1), Nat.sub_self]
      rfl
  rw [placed, ← step 1 ls]
  refine List.filterMap_congr fun n hn => ?_
  have hpositive := (List.mem_range'_1.1 hn).1
  rw [placeOf_entriesFrom, if_neg (by omega), Option.map_map]
  rfl

end LineMap

namespace Script

/-- The text of a script has a line end for each line. -/
theorem lineCount_print {s : Script} (h : ∀ l ∈ s.lines, l.IsRow) :
    lineCount (print s) = s.lines.length := by
  rw [lineCount, toList_print]
  revert h
  generalize s.lines = ls
  intro h
  induction ls with
  | nil => rfl
  | cons l ls ih =>
    obtain ⟨hl, hls⟩ := List.forall_mem_cons.1 h
    rw [List.flatMap_cons, List.count_append, List.count_append, ih hls,
      List.count_eq_zero_of_not_mem (Line.not_mem_row hl), List.length_cons]
    simp
    omega

/-- The map of a script is read back as its lines that have an origin. -/
theorem lines_ofOrigins {s : Script} (hrows : ∀ l ∈ s.lines, l.IsRow)
    (hplaces : ∀ l ∈ s.lines, ∀ p ∈ l.origin, p.line ≤ 2 ^ 60 ∧ p.column ≤ 2 ^ 60)
    (file source : RawText) :
    (LineMap.ofEntries file source (s.origins.map fun (n, p) => ((n : Int), p.toMap))
      (lineCount (print s))).lines =
      .ok (s.origins.map fun (n, p) => (n, p.toMap)) := by
  have hentries : (s.origins.map fun (n, p) => ((n : Int), p.toMap)) =
      LineMap.entriesFrom 1 s.lines := rfl
  rw [hentries, lineCount_print hrows, LineMap.lines_ofEntries]
  · rw [Int.toNat_natCast, LineMap.placed_entriesFrom, origins, List.map_filterMap]
    simp only [Option.map_map]
    rfl
  · intro e he
    obtain ⟨⟨n, p⟩, horigin, rfl⟩ := List.mem_map.1 he
    obtain ⟨⟨l, m⟩, hl, hp⟩ := List.mem_filterMap.1 horigin
    obtain ⟨q, hq, heq⟩ := Option.map_eq_some_iff.1 hp
    cases heq
    have hbound := hplaces l (List.fst_mem_of_mem_zipIdx hl) p hq
    simp only [Position.toMap]
    omega

end Script

end Easel
