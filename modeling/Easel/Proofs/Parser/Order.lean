import Easel.Proofs.Layout.Code

/-!
# The order of diagnostics

The tokens of a source stand one behind the other (`pairwise_lex`), and faults are met at tokens in
the order they are reported (`Met.pairwise`, `Met.exists_mem`).  So the diagnostics of a source come
in the order of their places, each at the place of a token, and each with the line of that token
without the blanks around it: `readingDiagnostics_in_order`.  Lines and trimming are described
without the functions that compute them (`Text.IsLine`, `Text.IsTrimmed`).
-/

namespace Easel

/-! ## Lines of a text -/

namespace Text

/-- `line` is the line of the text with number `n`: it has no line feed, one is before it or it is
the first line, and one is after it or it is the last. -/
def IsLine (text : List Char) (n : Nat) (line : List Char) : Prop :=
  '\n' ∉ line ∧ ∃ before after : List Char, text = before ++ (line ++ after) ∧
    n = 1 + before.count '\n' ∧ (before = [] ∨ before.getLast? = some '\n') ∧
    (after = [] ∨ after.head? = some '\n')

/-- `cs` is left of `line` without the blanks at both ends. -/
def IsTrimmed (line cs : List Char) : Prop :=
  ∃ left right : List Char, line = left ++ (cs ++ right) ∧ left.all isBlank = true ∧
    right.all isBlank = true ∧ cs.head?.any isBlank = false ∧ cs.getLast?.any isBlank = false

/-- A place in a text is in the line that reaches to the line feeds around it. -/
theorem isLine_append (before after : List Char) :
    IsLine (before ++ after) (1 + before.count '\n')
      (before.rtakeWhile (· != '\n') ++ after.takeWhile (· != '\n')) := by
  have hfree : '\n' ∉ before.rtakeWhile (· != '\n') := fun h => by
    simpa using List.mem_rtakeWhile_imp h
  have hsplit : before.rdropWhile (· != '\n') ++ before.rtakeWhile (· != '\n') = before :=
    List.rdropWhile_append_rtakeWhile
  have hcount : before.count '\n' = (before.rdropWhile (· != '\n')).count '\n' := by
    conv_lhs => rw [← hsplit]
    rw [List.count_append, List.count_eq_zero.2 hfree, Nat.add_zero]
  refine ⟨?_, before.rdropWhile (· != '\n'), after.dropWhile (· != '\n'), ?_, ?_, ?_, ?_⟩
  · rw [List.mem_append, not_or]
    exact ⟨hfree, fun h => by simpa using List.mem_takeWhile_imp h⟩
  · rw [List.append_assoc, List.takeWhile_append_dropWhile, ← List.append_assoc, hsplit]
  · rw [hcount]
  · by_cases h : before.rdropWhile (· != '\n') = []
    · exact .inl h
    · have hlast := List.rdropWhile_last_not (· != '\n') before h
      rw [List.getLast?_eq_getLast_of_ne_nil h]
      exact .inr (congrArg some (by simpa using hlast))
  · cases h : after.dropWhile (· != '\n') with
    | nil => exact .inl rfl
    | cons c cs =>
      have hhead := List.head?_dropWhile_not (· != '\n') after
      rw [h] at hhead
      exact .inr (congrArg some (by simpa using hhead))

theorem length_splitOn (cs : List Char) (c : Char) : (cs.splitOn c).length = cs.count c + 1 := by
  induction cs with
  | nil => rfl
  | cons d cs ih =>
    rw [List.splitOn_cons_eq_if_modifyHead, List.count_cons]
    split_ifs with h
    · rw [List.length_cons, ih]
    · rw [List.length_modifyHead, ih, Nat.add_zero]

/-- The line with a number is the piece between line feeds at that index. -/
theorem IsLine.getElem?_splitOn {text line : List Char} {n : Nat} (h : IsLine text n line) :
    (text.splitOn '\n')[n - 1]? = some line := by
  obtain ⟨hline, before, after, rfl, rfl, hbefore, hafter⟩ := h
  have hfirst : ((line ++ after).splitOn '\n')[0]? = some line := by
    rcases hafter with rfl | hafter
    · rw [List.append_nil, List.splitOn_eq_singleton hline]
      rfl
    · obtain ⟨after, rfl⟩ := List.head?_eq_some_iff.1 hafter
      rw [List.splitOn_append_cons_self_of_not_mem hline]
      rfl
  rcases hbefore with rfl | hbefore
  · exact hfirst
  · obtain ⟨before, rfl⟩ := List.getLast?_eq_some_iff.1 hbefore
    rw [List.append_assoc, List.singleton_append, List.splitOn_append_cons_self,
      List.getElem?_append_right (by simp [length_splitOn])]
    simpa [length_splitOn] using hfirst

theorem isTrimmed_trimChars (line : List Char) : IsTrimmed line (trimChars line) := by
  -- what is trimmed at the end is a prefix of what is trimmed at the start
  have hsplit : trimChars line ++ (line.dropWhile isBlank).rtakeWhile isBlank =
      line.dropWhile isBlank := List.rdropWhile_append_rtakeWhile
  refine ⟨line.takeWhile isBlank, (line.dropWhile isBlank).rtakeWhile isBlank, ?_, ?_, ?_, ?_, ?_⟩
  · rw [hsplit, List.takeWhile_append_dropWhile]
  · exact List.all_takeWhile
  · exact List.all_eq_true.2 fun c hc => List.mem_rtakeWhile_imp hc
  · cases h : trimChars line with
    | nil => rfl
    | cons c cs =>
      have hhead := List.head?_dropWhile_not isBlank line
      rw [← hsplit, h] at hhead
      exact hhead
  · by_cases h : trimChars line = []
    · rw [h]
      rfl
    · have hlast : ¬isBlank ((trimChars line).getLast h) := List.rdropWhile_last_not isBlank _ h
      rw [List.getLast?_eq_getLast_of_ne_nil h]
      simpa using hlast

end Text

/-- The snippet for a line that the text has is that line without the blanks around it. -/
theorem Diagnostic.isTrimmed_snippetAt {source : String} {n : Nat} {line : List Char}
    (h : Text.IsLine source.toList n line) :
    Text.IsTrimmed line (snippetAt (linesOf source) n).toList := by
  have hn : 1 ≤ (n : Int) := by
    obtain ⟨-, before, after, -, rfl, -⟩ := h
    omega
  have hline : (linesOf source)[n - 1]? = some (String.ofList line) := by
    rw [linesOf, List.getElem?_map, h.getElem?_splitOn]
    rfl
  rw [snippetAt, if_pos hn, Int.toNat_natCast, hline]
  simpa [Text.trim] using Text.isTrimmed_trimChars line

/-! ## Tokens one behind the other -/

/-- The first place is not after the second. -/
def Position.NotAfter (p q : Position) : Prop :=
  p.line < q.line ∨ p.line = q.line ∧ p.column ≤ q.column

namespace Position.NotAfter

theorem refl (p : Position) : p.NotAfter p := .inr ⟨rfl, le_rfl⟩

theorem trans {p q r : Position} (h : p.NotAfter q) (h' : q.NotAfter r) : p.NotAfter r := by
  unfold NotAfter at h h' ⊢
  omega

end Position.NotAfter

theorem Cursor.notAfter_step (k : Cursor) (c : Char) :
    k.position.NotAfter (k.step c).position := by
  unfold step
  split_ifs
  · exact .inl (Nat.lt_succ_self _)
  · exact .inr ⟨rfl, Nat.le_succ _⟩

namespace Token

theorem notAfter_of_mem_codeFrom {k : Cursor} {skip : Nat} {cs : List Char} :
    ∀ t ∈ codeFrom k skip cs, k.position.NotAfter t.position := by
  induction cs generalizing k skip with
  | nil => exact List.forall_mem_singleton.2 (.refl _)
  | cons c cs ih =>
    have hrest (skip : Nat) : ∀ t ∈ codeFrom (k.step c) skip cs, k.position.NotAfter t.position :=
      fun t ht => (k.notAfter_step c).trans (ih t ht)
    cases skip with
    | succ skip => exact hrest skip
    | zero =>
      rw [codeFrom]
      split
      · exact hrest _
      · exact hrest _
      · exact List.forall_mem_cons.2 ⟨.refl _, hrest _⟩

theorem pairwise_codeFrom (k : Cursor) (skip : Nat) (cs : List Char) :
    (codeFrom k skip cs).Pairwise fun t u => t.position.NotAfter u.position := by
  induction cs generalizing k skip with
  | nil => exact List.pairwise_singleton ..
  | cons c cs ih =>
    cases skip with
    | succ skip => exact ih (k.step c) skip
    | zero =>
      rw [codeFrom]
      split
      · exact ih _ _
      · exact ih _ _
      · refine List.pairwise_cons.2 ⟨fun u hu => ?_, ih _ _⟩
        exact (k.notAfter_step c).trans (notAfter_of_mem_codeFrom u hu)

/-- The tokens of a source stand one behind the other. -/
theorem pairwise_lex (source : String) :
    (lex source).Pairwise fun t u => t.position.NotAfter u.position :=
  pairwise_codeFrom .start 0 source.toList

/-- A token stands in a line of its source. -/
theorem exists_isLine {source : String} {t : Token} (h : t ∈ lex source) :
    ∃ line, Text.IsLine source.toList t.position.line line := by
  have hstands : t.Stands source.toList := stands_codeFrom [] 0 source.toList t h
  have hline := Text.isLine_append (source.toList.take t.offset) (source.toList.drop t.offset)
  rw [List.take_append_drop, ← hstands.position.line] at hline
  exact ⟨_, hline⟩

end Token

/-! ## Faults one behind the other -/

namespace Parser

/-- If there is a token to come, the next one is the first of those that count. -/
theorem exists_significant_eq_cons {ts : List Token} {t : Token} (h : t ∈ significant ts) :
    ∃ rest, significant ts = peek ts :: rest := by
  cases hs : significant ts with
  | nil =>
    rw [hs] at h
    cases h
  | cons u rest => exact ⟨rest, by rw [peek_eq_of_significant hs]⟩

namespace Met

variable {ts rest : List Token} {fs : List Fault} {eof : Token} (h : Met ts fs rest)
  (hk : eof.kind = .eof) (hmem : eof ∈ significant ts)
include h hk hmem

/-- If the text has an end, every fault stands at a token. -/
theorem exists_mem : ∀ f ∈ fs, ∃ t ∈ significant ts, f.position = t.position := by
  induction h with
  | done => exact fun _ hf => absurd hf List.not_mem_nil
  | @fault ts us rest f fs h hf _ ih =>
    have hmem := h.mem_of_eof hmem hk
    obtain ⟨more, hmore⟩ := exists_significant_eq_cons hmem
    refine List.forall_mem_cons.2 ⟨⟨peek us, h.mem (by simp [hmore]), hf⟩, fun g hg => ?_⟩
    obtain ⟨t, ht, hg⟩ := ih hmem g hg
    exact ⟨t, h.mem ht, hg⟩

/-- Where tokens stand one behind the other, faults are met one behind the other. -/
theorem pairwise
    (hsorted : (significant ts).Pairwise fun t u => t.position.NotAfter u.position) :
    fs.Pairwise fun f g => f.position.NotAfter g.position := by
  induction h with
  | done => exact .nil
  | @fault ts us rest f fs h hf hrest ih =>
    have hmem := h.mem_of_eof hmem hk
    have hsorted := hsorted.sublist h.suffix.sublist
    refine List.pairwise_cons.2 ⟨fun g hg => ?_, ih hmem hsorted⟩
    obtain ⟨t, ht, hgt⟩ := hrest.exists_mem hk hmem g hg
    obtain ⟨more, hmore⟩ := exists_significant_eq_cons hmem
    rw [hmore] at ht hsorted
    rw [hf, hgt]
    rcases List.mem_cons.1 ht with rfl | ht
    · exact .refl _
    · exact (List.pairwise_cons.1 hsorted).1 t ht

end Met

theorem met_parse (ts : List Token) : ∃ rest, Met ts (parse ts).2 rest := by
  obtain ⟨list, hlist⟩ := exists_statementsWithin_eq_ok false ts (ts.length + 2)
  have hmet := (readsStmts_statementsWithin (ts.length + 2) false ts trivial fun _ _ => trivial).met
  rw [faults_of_ok hlist] at hmet
  exact ⟨_, hmet⟩

end Parser

/-! ## Diagnostics of a source -/

/-- The diagnostics of a source come in the order of their places. Each has the place of a token of
the source, and its snippet is the line of the source with that number, without the blanks at both
ends. -/
theorem readingDiagnostics_in_order (source : String) :
    (readingDiagnostics source (Token.lex source)).Pairwise (fun d e =>
      d.line < e.line ∨ d.line = e.line ∧ d.column ≤ e.column) ∧
    ∀ d ∈ readingDiagnostics source (Token.lex source), ∃ t ∈ Token.lex source,
      d.line = t.position.line ∧ d.column = t.position.column ∧
      ∃ line, Text.IsLine source.toList t.position.line line ∧
        Text.IsTrimmed line d.snippet.toList := by
  obtain ⟨rest, hmet⟩ := Parser.met_parse (Token.lex source)
  obtain ⟨eof, hk, -, hlex⟩ := Layout.lex_eq source
  have hleft := Parser.left_significant (Token.lex source)
  have hmem := hleft.mem_of_eof (by simp [hlex]) hk
  have hsorted := (Token.pairwise_lex source).sublist hleft.suffix.sublist
  unfold readingDiagnostics Diagnostic.withSnippets
  refine ⟨?_, fun d hd => ?_⟩
  · rw [List.map_map, List.pairwise_map]
    refine (hmet.pairwise hk hmem hsorted).imp fun {f g} hfg => ?_
    unfold Position.NotAfter at hfg
    simp only [Function.comp, Fault.toDiagnostic]
    omega
  · rw [List.map_map, List.mem_map] at hd
    obtain ⟨f, hf, rfl⟩ := hd
    obtain ⟨t, ht, hft⟩ := hmet.exists_mem hk hmem f hf
    obtain ⟨line, hline⟩ := Token.exists_isLine (hleft.mem ht)
    refine ⟨t, hleft.mem ht, ?_, ?_, line, hline, ?_⟩
    · rw [← hft]
      rfl
    · rw [← hft]
      rfl
    · rw [← hft] at hline
      exact Diagnostic.isTrimmed_snippetAt hline

/-- Faults in a block, in a block inside it and, two of them, at the end of the text. -/
theorem readingDiagnostics_in_order_nested :
    let source := "\n".intercalate [r"scene s {", r"  animate {", "    spin 3", r"    move }",
      "  let = 1", "\ta +", "", " "]
    let ds := readingDiagnostics source (Token.lex source)
    let d : Diagnostic := ⟨.parse, 4, 10, r"Unexpected token: }", r"move }"⟩
    ds.length = 5 ∧
    ds.Pairwise (fun d e => d.line < e.line ∨ d.line = e.line ∧ d.column ≤ e.column) ∧
    d ∈ ds ∧ ∃ t ∈ Token.lex source,
      d.line = t.position.line ∧ d.column = t.position.column ∧
      ∃ line, Text.IsLine source.toList t.position.line line ∧
        Text.IsTrimmed line d.snippet.toList := by
  intro source ds d
  have horder := readingDiagnostics_in_order source
  have h : d ∈ ds := by decide +kernel
  exact ⟨by decide +kernel, horder.1, h, horder.2 d h⟩

end Easel
