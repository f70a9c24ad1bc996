import Easel.Proofs.Parser.Yield
import Easel.Proofs.Script.Rows

/-!
# Texts that stay on their line

Names, numbers and strings of a source have no line feed in them.  Names and numbers also start a
line of code wherever they stand first.
-/

namespace Easel

open Token (stringBody)
open Script (isInline_iff opensLine_iff)

theorem not_mem_of_all {p : Char → Bool} {c : Char} {cs : List Char} (h : ∀ d ∈ cs, p d = true)
    (hc : p c = false) : c ∉ cs := by
  intro hmem
  rw [h c hmem] at hc
  cases hc

/-- A text whose characters are of a class without blanks, slashes and line feeds. -/
theorem Script.opensLine_of_all {p : Char → Bool} {t : String} (hne : t ≠ "")
    (h : ∀ c ∈ t.toList, p c = true) (hbreak : p '\n' = false) (hblank : p ' ' = false)
    (hslash : p '/' = false) : opensLine t = true := by
  have head {d : Char} (hd : p d = false) : t.toList.head? ≠ some d :=
    fun hhead => not_mem_of_all h hd (List.mem_of_mem_head? hhead)
  exact opensLine_iff.2 ⟨isInline_iff.2 ⟨hne, not_mem_of_all h hbreak⟩, head hblank, head hslash⟩

/-! ## Tokens of a source -/

theorem IsName.opensLine {s : String} (h : IsName s) : Script.opensLine s = true := by
  obtain ⟨rest, h⟩ := h
  obtain ⟨c, cs, htext, hc, hcs, -⟩ := h.word_of_kind rfl
  have htext : s.toList = c :: cs := htext
  refine Script.opensLine_of_all (p := Token.isWordChar) ?_ ?_ (by decide) (by decide) (by decide)
  · rintro rfl
    cases htext
  · rw [htext]
    refine List.forall_mem_cons.2 ⟨?_, hcs⟩
    rw [Bool.or_eq_true] at hc
    rcases hc with hc | hc <;> simp [Token.isWordChar, hc]

theorem lineFeed_not_mem_stringBody {cs : List Char} (h : stringBody cs = (cs, true)) :
    '\n' ∉ cs := by
  fun_induction stringBody cs with
  | case1 | case2 | case4 => cases h
  | case3 rest =>
    cases h
    decide
  | case5 c rest hc text closed heq ih =>
    cases h
    rw [List.mem_cons, List.mem_cons, not_or, not_or]
    exact ⟨by decide, fun h => hc h.symm, ih heq⟩
  | case6 c rest hline _ _ _ text closed heq ih =>
    cases h
    rw [List.mem_cons, not_or]
    exact ⟨fun h => hline h.symm, ih heq⟩

theorem IsStringValue.unbroken {s : String} (h : IsStringValue s) :
    '\n' ∉ (Script.escapeQuotes s).toList := by
  obtain ⟨cs, htext, hbody⟩ := (h.found []).string_of_kind rfl
  have hcs : (Script.escapeQuotes s).toList ++ ['"'] = cs := (List.cons.inj htext).2
  intro hmem
  exact lineFeed_not_mem_stringBody hbody (hcs ▸ List.mem_append_left _ hmem)

/-! ## Numbers -/

/-- The characters of decimals. -/
def isDecimalChar (c : Char) : Bool := c.isDigit || ['.', 'e', '+', '-'].contains c

theorem isDecimalChar_of_mem_toDigits {n : Nat} : ∀ c ∈ Nat.toDigits 10 n, isDecimalChar c = true := by
  intro c h
  rw [isDecimalChar, Nat.isDigit_of_mem_toDigits (by decide) (by decide) h, Bool.true_or]

theorem isDecimalChar_of_mem_replicate {n : Nat} :
    ∀ c ∈ List.replicate n '0', isDecimalChar c = true := by
  intro c h
  rw [List.eq_of_mem_replicate h]
  decide

namespace Decimal

theorem positional_chars (d : Decimal) :
    d.positional ≠ [] ∧ ∀ c ∈ d.positional, isDecimalChar c = true := by
  have hdigits : ∀ c ∈ d.digits, isDecimalChar c = true := isDecimalChar_of_mem_toDigits
  unfold positional
  dsimp only
  split_ifs
  · refine ⟨by simp [digits, Nat.toDigits_ne_nil], List.forall_mem_append.2 ⟨hdigits, ?_⟩⟩
    exact isDecimalChar_of_mem_replicate
  · refine ⟨by simp, List.forall_mem_append.2 ⟨?_, List.forall_mem_cons.2 ⟨by decide, ?_⟩⟩⟩
    · exact fun c hc => hdigits c (List.mem_of_mem_take hc)
    · exact fun c hc => hdigits c (List.mem_of_mem_drop hc)
  · refine ⟨by simp, List.forall_mem_cons.2 ⟨by decide, List.forall_mem_cons.2 ⟨by decide, ?_⟩⟩⟩
    exact List.forall_mem_append.2 ⟨isDecimalChar_of_mem_replicate, hdigits⟩

theorem scientific_chars (width : Nat) (d : Decimal) :
    d.scientific width ≠ [] ∧ ∀ c ∈ d.scientific width, isDecimalChar c = true := by
  have hdigits : ∀ c ∈ d.digits, isDecimalChar c = true := isDecimalChar_of_mem_toDigits
  unfold scientific
  dsimp only
  refine ⟨by simp, List.forall_mem_append.2 ⟨?_, ?_⟩⟩
  · revert hdigits
    cases d.digits with
    | nil => exact id
    | cons c rest =>
      cases rest with
      | nil => exact id
      | cons c' rest =>
        intro h
        obtain ⟨hc, hrest⟩ := List.forall_mem_cons.1 h
        exact List.forall_mem_cons.2 ⟨hc, List.forall_mem_cons.2 ⟨by decide, hrest⟩⟩
  · refine List.forall_mem_cons.2 ⟨by decide, List.forall_mem_cons.2 ⟨?_, ?_⟩⟩
    · split_ifs <;> decide
    · exact List.forall_mem_append.2 ⟨isDecimalChar_of_mem_replicate, isDecimalChar_of_mem_toDigits⟩

theorem format_chars (layout : Layout) (d : Decimal) :
    d.format layout ≠ "" ∧ ∀ c ∈ (d.format layout).toList, isDecimalChar c = true := by
  have htext (cs : List Char) (h : cs ≠ [] ∧ ∀ c ∈ cs, isDecimalChar c = true) :
      String.ofList cs ≠ "" ∧ ∀ c ∈ (String.ofList cs).toList, isDecimalChar c = true := by
    rw [String.toList_ofList]
    exact ⟨by simpa using h.1, h.2⟩
  rw [format]
  split_ifs
  · exact htext _ d.positional_chars
  · exact htext _ (d.scientific_chars _)

end Decimal

theorem Numeral.opensLine_text (v : Numeral) : Script.opensLine v.text = true := by
  obtain ⟨hne, hchars⟩ := v.shortest.format_chars scriptLayout
  exact Script.opensLine_of_all hne hchars (by decide) (by decide) (by decide)

end Easel
