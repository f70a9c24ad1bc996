import Easel.Proofs.Parser.SameLines
import Easel.Proofs.Token.Places

/-!
# The code of a text

A parser sees neither blanks nor comments.  `codePlaced` gives the tokens of lexemes that it sees,
`lex_eq` says that these are the tokens of a source, and `codesOf` what they are apart from their
positions: lexemes with the same codes give lists with the same lines (`sameLines_append`).
-/

namespace Easel.Layout

open Token (Kind Lexeme textOf)
open Easel.Parser (SameLines)

/-- The tokens of lexemes, without the comments. -/
def codePlaced (k : Cursor) (ls : List Lexeme) : List Token :=
  (placed k ls).filter fun t => t.kind != .comment

theorem lex_eq (source : String) : ∃ eof : Token, eof.kind = .eof ∧ eof.text = "" ∧
    Token.lex source = codePlaced .start (Token.lexemes source.toList) ++ [eof] := by
  obtain ⟨eof, heof, htext, hlex⟩ := lexWithComments_eq source
  refine ⟨eof, heof, htext, ?_⟩
  rw [Token.lexWithComments] at hlex
  rw [Token.lex, Token.codeFrom_eq_filter, hlex, List.filter_append,
    List.filter_cons_of_pos (by simp [heof]), List.filter_nil]
  rfl

theorem map_kind_codePlaced (k : Cursor) (ls : List Lexeme) :
    (codePlaced k ls).map Token.kind = (kindsOf ls).filter (· != .comment) := by
  rw [← map_kind_placed k, List.filter_map]
  rfl

theorem codePlaced_append (k : Cursor) (ls ls' : List Lexeme) :
    codePlaced k (ls ++ ls') = codePlaced k ls ++ codePlaced (k.advance (textOf ls)) ls' := by
  rw [codePlaced, placed_append, List.filter_append]
  rfl

theorem kind_of_mem_codePlaced {ls : List Lexeme} (hline : ∀ l ∈ ls, isLineEnd l = false)
    (hend : ∀ l ∈ ls, l.kind ≠ some .eof) {k : Cursor} :
    ∀ t ∈ codePlaced k ls, t.kind ≠ .newline ∧ t.kind ≠ .eof := by
  intro t ht
  obtain ⟨l, hl, hkind, -⟩ := exists_of_mem_placed (List.mem_filter.1 ht).1
  refine ⟨fun hk => ?_, fun hk => hend l hl (hk ▸ hkind)⟩
  have := hline l hl
  simp [isLineEnd, hkind, hk] at this

/-- What a parser sees of lexemes on a line: the kinds and texts of those that are no comments. -/
def codesOf (ls : List Lexeme) : List (Kind × String) :=
  ls.filterMap fun l => l.kind.bind fun kind =>
    if kind = .comment then none else some (kind, String.ofList l.text)

theorem map_codePlaced (k : Cursor) (ls : List Lexeme) :
    (codePlaced k ls).map (fun t => (t.kind, t.text)) = codesOf ls := by
  induction ls generalizing k with
  | nil => rfl
  | cons l ls ih =>
    obtain ⟨_ | kind, text⟩ := l
    · exact ih _
    · have hrest := ih (k.advance text)
      by_cases hk : kind = .comment
      · simp only [codePlaced, placed, codesOf, List.filterMap_cons, Option.bind_some, if_pos hk]
        rw [List.filter_cons_of_neg (by simp [hk])]
        exact hrest
      · simp only [codePlaced, placed, codesOf, List.filterMap_cons, Option.bind_some, if_neg hk]
        rw [List.filter_cons_of_pos (by simp [hk])]
        exact congrArg (_ :: ·) hrest

/-- Lists that start with the same tokens on one line and go on with the same lines. -/
theorem sameLines_append {us us' ts ts' : List Token}
    (h : us.map (fun t => (t.kind, t.text)) = us'.map (fun t => (t.kind, t.text)))
    (hus : ∀ t ∈ us, t.kind ≠ .newline ∧ t.kind ≠ .eof) (hts : SameLines ts ts') :
    SameLines (us ++ ts) (us' ++ ts') := by
  induction us generalizing us' with
  | nil =>
    obtain rfl : us' = [] := by simpa using h.symm
    exact hts
  | cons t us ih =>
    cases us' with
    | nil => cases h
    | cons t' us' =>
      obtain ⟨ht, hrest⟩ := List.cons.inj h
      obtain ⟨hkind, htext⟩ := Prod.mk.inj ht
      obtain ⟨⟨hline, hend⟩, hus⟩ := List.forall_mem_cons.1 hus
      exact .token hkind htext hline hend (ih hrest hus)

end Easel.Layout
