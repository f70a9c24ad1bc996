import Easel.Proofs.Parser.Yield

/-!
# The names that expressions read

Every name that an expression of a source reads, also in an object or a shape, is a name of the
language: `named_expressionWithin`.  So it has no dollar sign in it.
-/

namespace Easel

theorem IsName.not_mem_dollar {s : String} (h : IsName s) : '$' ∉ s.toList := by
  obtain ⟨rest, h⟩ := h
  obtain ⟨c, cs, htext, hc, hcs, -⟩ := h.word_of_kind rfl
  have htext : s.toList = c :: cs := htext
  rw [htext, List.mem_cons]
  rintro (rfl | hmem)
  · exact absurd hc (by decide)
  · exact absurd (hcs _ hmem) (by decide)

/-- The names an expression reads are names of the language. -/
def Expr.Named (e : Expr) : Prop := ∀ id ∈ e.reads, IsName id.name

namespace Expr

theorem named_leaf {t : Token} (ht : t.Genuine) {e : Expr} (he : Parser.leaf? t = some e) :
    Named e := by
  unfold Parser.leaf? at he
  split at he <;> cases he
  case h_6 hk => exact List.forall_mem_singleton.2 (ht.isName hk)
  all_goals exact List.forall_mem_nil _

theorem hereditary_named : Hereditary Token.Genuine Named where
  leaf := named_leaf
  number _ _ := List.forall_mem_nil _
  array _ _ h := by
    rw [Named, reads, readsAll_eq_flatMap]
    exact List.forall_mem_flatMap.2 h
  object _ _ h := by
    rw [Named, reads, readsProperties_eq_flatMap]
    exact List.forall_mem_flatMap.2 (List.forall_mem_map.2 h)
  negate _ _ h := h
  binary _ _ _ _ hl hr := List.forall_mem_append.2 ⟨hl, hr⟩
  assign _ ht hv := List.forall_mem_append.2 ⟨ht, hv⟩
  call hc hargs := by
    rw [Named, reads, readsAll_eq_flatMap]
    exact List.forall_mem_append.2 ⟨hc, List.forall_mem_flatMap.2 hargs⟩
  member hb _ := hb
  index hb hk := List.forall_mem_append.2 ⟨hb, hk⟩
  shape _ s h _ := by
    rw [Named, reads, s.reads_eq_flatMap]
    exact List.forall_mem_flatMap.2 h

end Expr

/-- The names in an expression that is read from tokens of a source are names of the language. -/
theorem Parser.named_expressionWithin (n : Nat) : Yields Token.Genuine Expr.Named (expressionWithin n) :=
  yields_expressionWithin Expr.hereditary_named n

end Easel
