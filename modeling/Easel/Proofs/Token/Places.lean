import Easel.Proofs.Layout.Lines
import Mathlib.Data.List.DropRight

/-!
# One pass over a text

`lex` carries its place from character to character and passes comments and blanks on the way, while
`lexWithComments` cuts the text into lexemes first.  The two make the same steps (`codeFrom_eq_filter`):
they differ in the comments only.  A place that is carried along says how many line feeds are before it
and how many characters are behind the last of them (`marks_advance`), so every token stands where its
offset says: `position_exact`.
-/

namespace Easel.Token

/-! ## Both ways to read a text -/

/-- The characters of a piece are passed one by one. -/
theorem codeFrom_append (k : Cursor) (cs rest : List Char) :
    codeFrom k cs.length (cs ++ rest) = codeFrom (k.advance cs) 0 rest := by
  induction cs generalizing k with
  | nil => rfl
  | cons c cs ih => exact ih (k.step c)

section Scan

variable {c : Char} {cs rest : List Char} {l : Lexeme} (hl : scan c (cs ++ rest) = l)
  (htext : l.text = c :: cs) (k : Cursor)
include hl htext

omit hl in
/-- What follows a lexeme is read from its end on. -/
theorem codeFrom_after : codeFrom (k.step c) (l.text.length - 1) (cs ++ rest) =
    codeFrom (k.advance l.text) 0 rest := by
  rw [htext, List.length_cons, Nat.add_sub_cancel]
  exact codeFrom_append (k.step c) cs rest

theorem codeFrom_of_passed (hk : l.kind = none ∨ l.kind = some .comment) :
    codeFrom k 0 (c :: (cs ++ rest)) = codeFrom (k.advance l.text) 0 rest := by
  rw [codeFrom, hl]
  rcases hk with hk | hk <;> simp only [hk] <;> exact codeFrom_after htext k

theorem codeFrom_of_token {kind : Kind} (hk : l.kind = some kind) (hcomment : kind ≠ .comment) :
    codeFrom k 0 (c :: (cs ++ rest)) =
      ⟨kind, String.ofList l.text, k.position, k.offset⟩ ::
        codeFrom (k.advance l.text) 0 rest := by
  rw [codeFrom, hl, ← codeFrom_after htext k]
  simp only [hk]

end Scan

/-- One pass from a place on gives the tokens of the lexemes placed there, without the comments. -/
theorem codeFrom_eq_filter (k : Cursor) (cs : List Char) :
    codeFrom k 0 cs = (place k (lexemes cs)).filter fun t => t.kind != .comment := by
  induction hn : cs.length using Nat.strong_induction_on generalizing k cs with
  | _ n ih =>
    cases cs with
    | nil => rfl
    | cons c cs =>
      obtain ⟨body, rest, hbody, rfl, -⟩ := found_scan c cs
      have hrest := ih rest.length (by simp at hn; omega) (k.advance (scan c (body ++ rest)).text)
        rest rfl
      rw [lexemes_of_scan rfl hbody, place]
      cases hk : (scan c (body ++ rest)).kind with
      | none => rw [codeFrom_of_passed rfl hbody k (.inl hk), hrest]
      | some kind =>
        by_cases hcomment : kind = .comment
        · rw [codeFrom_of_passed rfl hbody k (.inr (hcomment ▸ hk)), hrest]
          exact (List.filter_cons_of_neg (by simp [hcomment])).symm
        · rw [codeFrom_of_token rfl hbody k hk hcomment, hrest]
          exact (List.filter_cons_of_pos (by simp [hcomment])).symm

theorem mem_lexWithComments_of_mem_lex {source : String} {t : Token} (h : t ∈ lex source) :
    t ∈ lexWithComments source := by
  rw [lex, codeFrom_eq_filter] at h
  exact List.mem_of_mem_filter h

/-- A text has the same tokens with and without its comments, but for the comments themselves: each
has its kind, its text and thereby its value and its end, and its place in the text. A comment that
is not closed is an unknown token of both. -/
theorem lex_eq_filter_lexWithComments (source : String) :
    lex source = (lexWithComments source).filter fun t => t.kind != .comment :=
  codeFrom_eq_filter .start source.toList

end Easel.Token

namespace Easel

/-! ## Places in a text -/

/-- The place after a text: its line counts the line feeds of the text, and its column the characters
behind the last of them. -/
structure Position.Marks (before : List Char) (p : Position) : Prop where
  line : p.line = 1 + before.count '\n'
  column : p.column = 1 + (before.rtakeWhile (· != '\n')).length

theorem Cursor.advance_concat (k : Cursor) (cs : List Char) (c : Char) :
    k.advance (cs ++ [c]) = (k.advance cs).step c :=
  List.foldl_concat ..

/-- A place that is carried along a text from its start is the place after it. -/
theorem Cursor.marks_advance (cs : List Char) : (start.advance cs).position.Marks cs := by
  induction cs using List.reverseRecOn with
  | nil => exact ⟨rfl, rfl⟩
  | append_singleton cs c ih =>
    obtain ⟨hline, hcolumn⟩ := ih
    rw [advance_concat]
    unfold step
    split_ifs with hc
    · constructor
      · simp only [hline, hc, List.count_append, List.count_singleton_self, Nat.add_assoc]
      · rw [List.rtakeWhile_concat_neg _ _ _ (by simp [hc])]
        rfl
    · constructor
      · simp only [hline, List.count_append, List.count_singleton, beq_iff_eq, if_neg hc, Nat.add_zero]
      · rw [List.rtakeWhile_concat_pos _ _ _ (by simp [hc]), List.length_append]
        simp only [hcolumn, List.length_singleton, Nat.add_assoc]

namespace Token

/-- The token stands in the text, at the place after the characters before its offset. -/
structure Stands (cs : List Char) (t : Token) : Prop where
  offset_le : t.offset ≤ cs.length
  position : t.position.Marks (cs.take t.offset)

theorem Stands.of_advance {t : Token} {before : List Char}
    (hposition : t.position = (Cursor.start.advance before).position)
    (hoffset : t.offset = (Cursor.start.advance before).offset) (cs : List Char) :
    t.Stands (before ++ cs) := by
  have hlength : t.offset = before.length := by
    rw [hoffset, Layout.offset_advance]
    exact Nat.zero_add _
  refine ⟨by simp [hlength], ?_⟩
  rw [hlength, List.take_left, hposition]
  exact Cursor.marks_advance before

theorem stands_codeFrom (before : List Char) (skip : Nat) (cs : List Char) :
    ∀ t ∈ codeFrom (Cursor.start.advance before) skip cs, t.Stands (before ++ cs) := by
  induction cs generalizing before skip with
  | nil =>
    rw [codeFrom]
    exact List.forall_mem_singleton.2 (.of_advance rfl rfl [])
  | cons c cs ih =>
    have hrest := ih (before ++ [c])
    rw [Cursor.advance_concat, List.append_assoc, List.singleton_append] at hrest
    cases skip with
    | succ skip => exact hrest skip
    | zero =>
      rw [codeFrom]
      split
      · exact hrest _
      · exact hrest _
      · exact List.forall_mem_cons.2 ⟨.of_advance rfl rfl (c :: cs), hrest _⟩

theorem stands_place (before : List Char) (ls : List Lexeme) :
    ∀ t ∈ place (Cursor.start.advance before) ls, t.Stands (before ++ textOf ls) := by
  induction ls generalizing before with
  | nil => exact List.forall_mem_singleton.2 (.of_advance rfl rfl [])
  | cons l ls ih =>
    have hadvance : (Cursor.start.advance before).advance l.text =
        Cursor.start.advance (before ++ l.text) := List.foldl_append.symm
    have hrest := ih (before ++ l.text)
    rw [place, hadvance, textOf_cons]
    rw [List.append_assoc] at hrest
    split
    · exact List.forall_mem_cons.2 ⟨.of_advance rfl rfl _, hrest⟩
    · exact hrest

/-- The place of every token, the end of the text included, is the true one: its line is one more than
the number of line feeds before its offset, and its column is one more than the number of characters
between the last of these line feeds, or the start of the text, and its offset. -/
theorem position_exact (source : String) (t : Token)
    (h : t ∈ lex source ∨ t ∈ lexWithComments source) :
    let before := source.toList.take t.offset
    t.offset ≤ source.length ∧ t.position.line = 1 + before.count '\n' ∧
      t.position.column = 1 + (before.rtakeWhile (· != '\n')).length := by
  have hstands : t.Stands source.toList := by
    rcases h with h | h
    · exact stands_codeFrom [] 0 source.toList t h
    · have hplace := stands_place [] (lexemes source.toList) t h
      rwa [textOf_lexemes] at hplace
  rw [← String.length_toList]
  exact ⟨hstands.offset_le, hstands.position.line, hstands.position.column⟩

/-- An operator behind a comment of two lines and a string that is not closed. -/
theorem position_exact_third_line :
    let source := "a /* x\n y */ \"b\n  !="
    let t : Token := ⟨.operator .ne, "!=", ⟨3, 3⟩, 18⟩
    let before := source.toList.take t.offset
    (t ∈ lex source ∨ t ∈ lexWithComments source) ∧ t.offset ≤ source.length ∧
      t.position.line = 1 + before.count '\n' ∧
      t.position.column = 1 + (before.rtakeWhile (· != '\n')).length := by
  intro source t before
  have h : t ∈ lex source := by decide +kernel
  exact ⟨.inl h, position_exact source t (.inl h)⟩

end Token

end Easel
