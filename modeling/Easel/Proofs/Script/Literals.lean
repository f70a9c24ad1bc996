import Easel.Proofs.Parser.Yield
import Easel.Proofs.Token.Lossless

/-!
# String literals in scripts

A string token stands for the characters between its quotes, where an escaped quote has lost its
backslash; a script puts a backslash before each quote again.  Inside a literal no quote stands
without a backslash, so the two cancel out (`Token.literalOf_lexeme`) and a string literal is
written as it stands in the source: `script_string_verbatim`.
-/

namespace Easel

/-- The characters that a token takes up in a source are its text. -/
theorem Token.slice_eq_text {source : String} {t : Token} (h : t ∈ lex source) :
    t.slice source.toList = t.text.toList := by
  have hcovers := covers_place .start fun l (hl : l ∈ lexemes source.toList) =>
    ⟨apt_of_mem_lexemesFrom hl, kind_ne_eof hl⟩
  rw [textOf_lexemes] at hcovers
  exact hcovers.text_eq [] rfl t (mem_lexWithComments_of_mem_lex h)

/-- The literal with the value of a string token is what the token takes up in its source. -/
theorem Token.literalOf_lexeme {source : String} {t : Token} (h : t ∈ lex source)
    (hk : t.kind = .string) : literalOf t.lexeme = t.slice source.toList := by
  obtain ⟨rest, hfound⟩ := found_of_mem_lex h (by simp [hk]) (by simp [hk])
  obtain ⟨inner, htext, -, -, hescape⟩ := exists_inner hfound hk
  rw [slice_eq_text h, htext, literalOf, hescape]

theorem Script.quoted_eq (value : String) :
    "\"" ++ escapeQuotes value ++ "\"" = String.ofList (literalOf value) := by
  apply String.toList_inj.1
  simp [literalOf]

/-- A string token of a source is written as it stands there, its quotes included, be it the value
of an expression or the font of a text. -/
theorem script_string_verbatim {source : String} {t : Token} (ht : t ∈ Token.lex source)
    (hk : t.kind = .string) (p : Position) (captured : List String) :
    let literal := String.ofList (t.slice source.toList)
    (∀ nested, (Expr.string p t.lexeme).script captured nested = Script.code literal) ∧
      ∀ x y content color size align, Script.line ("ctx.font = " ++ literal ++ ";") <:+:
        Shape.body captured (.text x y content color (some (p, t.lexeme)) size align) := by
  intro literal
  have hliteral : "\"" ++ Script.escapeQuotes t.lexeme ++ "\"" = literal := by
    rw [Script.quoted_eq, Token.literalOf_lexeme ht hk]
  refine ⟨fun nested => ?_, fun x y content color size align => ?_⟩
  · rw [Expr.script, hliteral]
  · have hfont : "ctx.font = \"" ++ Script.escapeQuotes t.lexeme ++ "\";" =
        "ctx.font = " ++ literal ++ ";" := by
      apply String.toList_inj.1
      simp [← hliteral]
    -- the line of the font stands behind the four constants and before four more parts
    rw [Shape.body]
    simp only [hfont]
    iterate 4 refine .trans ?_ (List.prefix_append _ _).isInfix
    exact (List.suffix_append _ _).isInfix

/-- Backslashes before a quote, another escape, and backslashes before the closing quote. -/
theorem script_string_verbatim_runs :
    let source := "x = \"\\\\\\\"\\n\\\\\""
    let t : Token := ⟨.string, "\"\\\\\\\"\\n\\\\\"", ⟨1, 5⟩, 4⟩
    t ∈ Token.lex source ∧ t.kind = .string ∧ t.lexeme = "\\\\\"\\n\\\\" ∧
      (Expr.string ⟨1, 5⟩ t.lexeme).script [] true =
        Script.code "\"\\\\\\\"\\n\\\\\"" := by
  intro source t
  have ht : t ∈ Token.lex source := by decide +kernel
  have hslice : String.ofList (t.slice source.toList) = "\"\\\\\\\"\\n\\\\\"" := by
    decide +kernel
  refine ⟨ht, rfl, by decide +kernel, ?_⟩
  rw [← hslice]
  exact (script_string_verbatim ht rfl ⟨1, 5⟩ []).1 true

end Easel
