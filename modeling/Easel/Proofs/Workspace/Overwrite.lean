import Easel.Proofs.Workspace.Calls

/-!
# Reading what was written

Content is told apart by size and checksum only.  A write that succeeds is read back exactly unless
the file held other content of the same size and checksum; then nothing changes (`read_write_iff`).
Such content is there for the taking: where the first word of seventeen to thirty-two bytes is the
first word of the secret, the second word does not show in the checksum (`checksum_eq_of_blind`).
-/

namespace Easel

namespace Checksum

variable {d d' : ByteArray}

theorem fold_zero (b : UInt64) : fold 0 b = 0 := by
  simp [fold]

/-- A word that equals the word of the secret it is mixed with hides the word after it. -/
theorem mixAt_of_eq_key {i s : Nat} (h : word64 d i = key s) : mixAt d i s = 0 := by
  rw [mixAt, h, UInt64.xor_self, fold_zero]

theorem checksum_of_blind (hmin : 16 < d.size) (hmax : d.size ≤ 32) (h : word64 d 0 = key 0) :
    checksum d = avalanche (size d * prime64First + mixAt d (d.size - 16) 16) := by
  have hcount : (d.size - 1) / 32 + 1 = 1 := by omega
  rw [checksum, if_neg (by omega), if_neg (by omega), if_neg (by omega), if_neg (by omega),
    if_pos (by omega), medium, hcount]
  simp [sumFrom, mixAt_of_eq_key h]

/-- Content of equal size that starts with the first word of the secret and ends with the same two
words has one checksum. -/
theorem checksum_eq_of_blind (hmin : 16 < d.size) (hmax : d.size ≤ 32) (hsize : d'.size = d.size)
    (h : word64 d 0 = key 0) (h' : word64 d' 0 = key 0)
    (hlast : word64 d (d.size - 16) = word64 d' (d.size - 16))
    (hend : word64 d (d.size - 8) = word64 d' (d.size - 8)) : checksum d = checksum d' := by
  have hnext : d.size - 16 + 8 = d.size - 8 := by omega
  rw [checksum_of_blind hmin hmax h, checksum_of_blind (by omega) (by omega) h', size, size, hsize,
    mixAt, mixAt, hnext, hlast, hend]

end Checksum

namespace Workspace

variable {w w' : Workspace} {name : RawText} {data old : ByteArray}

theorem read_eq_ok_iff : w.read name = .ok data ↔
    validPath name = true ∧ ∃ e, w.files.lookup name = some e ∧ e.data = data := by
  rw [read]
  cases hentry : w.entry name with
  | error e =>
    refine iff_of_false (by rintro ⟨⟩) ?_
    rintro ⟨hname, e', hlookup, -⟩
    rw [entry_eq_ok_iff.2 ⟨hname, hlookup⟩] at hentry
    cases hentry
  | ok e =>
    obtain ⟨hname, hlookup⟩ := entry_eq_ok_iff.1 hentry
    simp [Except.map, hname, hlookup]

theorem Consistent.checksum_of_lookup (h : Consistent w) {e : Entry}
    (hlookup : w.files.lookup name = some e) : e.checksum = Easel.checksum e.data :=
  h.stored.checksum (name, e) (mem_of_lookup_eq_some hlookup)

/-- A write that succeeds is read back exactly, unless the file held other content of the same size
and checksum. In that case the write changes nothing. -/
theorem read_write_iff {w w' : Workspace} {name : RawText} {data : ByteArray} (h : Reachable w)
    (hwrite : w.write name data = .ok w') :
    (w'.read name = .ok data ↔ ¬ ∃ old, w.read name = .ok old ∧ old ≠ data ∧
      old.size = data.size ∧ Easel.checksum old = Easel.checksum data) ∧
    (w'.read name ≠ .ok data → w' = w) := by
  obtain ⟨hname, -, ⟨⟨e, hlookup, hpasses⟩, rfl⟩ | ⟨hother, rfl⟩⟩ := write_ok_cases hwrite
  · have hread : w'.read name = .ok e.data := read_eq_ok_iff.2 ⟨hname, e, hlookup, rfl⟩
    have hchecksum := h.consistent.checksum_of_lookup hlookup
    refine ⟨⟨?_, ?_⟩, fun _ => rfl⟩
    · rintro hdata ⟨old, hold, hne, -, -⟩
      exact hne (Except.ok.inj (hold.symm.trans hdata))
    · intro hnone
      by_contra hdata
      refine hnone ⟨e.data, hread, ?_, hpasses.2, hchecksum.symm.trans hpasses.1⟩
      rintro rfl
      exact hdata hread
  · have hread : (w.written name data).read name = .ok data :=
      read_eq_ok_iff.2 ⟨hname, _, List.lookup_cons_self, rfl⟩
    refine ⟨⟨fun _ => ?_, fun _ => hread⟩, fun hne => absurd hread hne⟩
    rintro ⟨old, hold, -, hsize, hchecksum⟩
    obtain ⟨-, e, he, rfl⟩ := read_eq_ok_iff.1 hold
    exact hother e he ⟨(h.consistent.checksum_of_lookup he).trans hchecksum, hsize⟩

/-- Two contents of thirty-two bytes that differ in the second word. The second one is lost. -/
theorem read_write_iff_blind :
    let content (b : UInt8) : ByteArray := ⟨#[0xb8, 0xfe, 0x6c, 0x39, 0x23, 0xa4, 0x4b, 0xbe,
      b, 0, 0, 0, 0, 0, 0, 0, 0, 0, 0, 0, 0, 0, 0, 0, 0, 0, 0, 0, 0, 0, 0, 0]⟩
    let w := ((({} : Workspace).perform (.write "a" (content 0)) : StateM Host _).run {}).1.1
    Reachable w ∧ w.write "a" (content 1) = .ok w ∧ w.read "a" = .ok (content 0) ∧
      w.read "a" ≠ .ok (content 1) := by
  intro content w
  have hw : Reachable w := .call _ ({} : Host) .empty trivial
  have hlookup : w.files.lookup (RawText.ofString "a") = some (.ofData (content 0)) := rfl
  have hsame : Easel.checksum (content 0) = Easel.checksum (content 1) :=
    Checksum.checksum_eq_of_blind (by decide) (by decide) rfl (by decide +kernel)
      (by decide +kernel) (by decide +kernel) (by decide +kernel)
  have hname : validPath "a" = true := by decide +kernel
  have hwrite : w.write "a" (content 1) = .ok w :=
    (write_of_fits hname (by decide +kernel)).1 ⟨_, hlookup, hsame, rfl⟩
  have hread : w.read "a" = .ok (content 0) := read_eq_ok_iff.2 ⟨hname, _, hlookup, rfl⟩
  have hne : content 0 ≠ content 1 := by decide
  refine ⟨hw, hwrite, hread, fun hdata => ?_⟩
  exact (read_write_iff hw hwrite).1.1 hdata ⟨content 0, hread, hne, rfl, hsame⟩

end Workspace

end Easel
