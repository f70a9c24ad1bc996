import Mathlib.Data.List.Basic

/-!
# Lists with keys and lists with separators

A map is held as a list of keys with their values.  Dropping the entries of a key and putting a new
one in front changes what is found under that key and nothing else.  A list that is cut at each
separator has parts without separators.
-/

namespace Easel

variable {α β : Type} [BEq α] [LawfulBEq α] {entries : List (α × β)} {key key' : α} {value : β}

theorem lookup_erase_self : (entries.filter fun e => e.1 != key).lookup key = none := by
  rw [List.lookup_eq_none_iff]
  intro e he
  have hne : e.1 ≠ key := bne_iff_ne.1 (List.mem_filter.1 he).2
  exact bne_iff_ne.2 hne.symm

theorem lookup_erase_of_ne (h : key' ≠ key) :
    (entries.filter fun e => e.1 != key).lookup key' = entries.lookup key' := by
  induction entries with
  | nil => rfl
  | cons e rest ih =>
    obtain ⟨k, v⟩ := e
    by_cases hk : k = key
    · subst hk
      rw [List.filter_cons_of_neg (by simp), ih, List.lookup_cons, beq_eq_false_iff_ne.2 h]
    · rw [List.filter_cons_of_pos (by simpa using hk), List.lookup_cons, List.lookup_cons, ih]

theorem lookup_put_of_ne (h : key' ≠ key) :
    ((key, value) :: entries.filter fun e => e.1 != key).lookup key' = entries.lookup key' := by
  rw [List.lookup_cons, beq_eq_false_iff_ne.2 h, lookup_erase_of_ne h]

theorem mem_of_lookup_eq_some (h : entries.lookup key = some value) : (key, value) ∈ entries := by
  obtain ⟨before, after, rfl, -⟩ := List.lookup_eq_some_iff.1 h
  simp

theorem not_mem_of_mem_splitOn (separator : α) (as : List α) :
    ∀ part ∈ as.splitOn separator, separator ∉ part := by
  induction as with
  | nil => simp
  | cons a rest ih =>
    intro part hpart
    rw [List.splitOn_cons_eq_if_modifyHead] at hpart
    by_cases ha : (a == separator) = true
    · rw [if_pos ha] at hpart
      rcases List.mem_cons.1 hpart with rfl | hpart
      · exact List.not_mem_nil
      · exact ih part hpart
    · obtain ⟨first, more, hsplit⟩ :=
        List.exists_cons_of_ne_nil (List.splitOn_ne_nil separator rest)
      rw [if_neg ha, hsplit, List.modifyHead_cons] at hpart
      rw [hsplit] at ih
      rcases List.mem_cons.1 hpart with rfl | hpart
      · rw [List.mem_cons, not_or]
        exact ⟨fun h => ha (by simp [h]), ih first (List.mem_cons_self ..)⟩
      · exact ih part (List.mem_cons_of_mem _ hpart)

/-- Parts with a separator behind each are cut there again. -/
theorem splitOn_flatMap_append {separator : α} {parts : List (List α)}
    (h : ∀ part ∈ parts, separator ∉ part) (rest : List α) :
    (parts.flatMap (· ++ [separator]) ++ rest).splitOn separator =
      parts ++ rest.splitOn separator := by
  induction parts with
  | nil => rfl
  | cons part parts ih =>
    obtain ⟨hpart, hparts⟩ := List.forall_mem_cons.1 h
    rw [List.flatMap_cons, List.append_assoc, List.append_assoc, List.singleton_append,
      List.splitOn_append_cons_self_of_not_mem hpart, ih hparts, List.cons_append]

end Easel
