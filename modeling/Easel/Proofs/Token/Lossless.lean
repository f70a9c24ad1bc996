import Easel.Proofs.Layout.Lines

/-!
# Tokens lose nothing of the source

The lexemes of a text take it up piece by piece: a blank lexeme consists of blanks of one line, and
only comments, closed or not, have line feeds beside those that are tokens of their own
(`Lexeme.Apt`).  Placed one after another they cover the text (`Covers`), and whatever the
text is, its tokens stand in order, show what they stand for and leave only blanks between them:
`lossless_lexWithComments`.
-/

namespace Easel.Token

open Text

/-- The token takes up the character with a number. -/
def Spans (t : Token) (i : Nat) : Prop := t.offset ≤ i ∧ i < t.stop

/-- Whether a piece of text of a kind is a comment, be it closed or not. -/
def Kind.isCommentOf (kind : Kind) (text : List Char) : Bool :=
  kind == .comment || kind == .unknown && ['/', '*'].isPrefixOf text

/-- The characters of the source that the token takes up. -/
def slice (t : Token) (cs : List Char) : List Char := (cs.drop t.offset).take (t.stop - t.offset)

/-- Tokens in order that show all of a text but blanks. -/
structure Lossless (cs : List Char) (ts : List Token) : Prop where
  /-- No token starts before the tokens in front of it end. -/
  ordered : ts.Pairwise fun t u => t.stop ≤ u.offset
  /-- The last token and no other is the end of the text; the others are not empty. -/
  closed : ∃ front last, ts = front ++ [last] ∧ last.kind = .eof ∧ last.offset = cs.length ∧
    last.stop = cs.length ∧ ∀ t ∈ front, t.kind ≠ .eof ∧ t.offset < t.stop
  /-- A character outside all tokens is a blank, and no line feed. -/
  blanks : ∀ i c, cs[i]? = some c → (∀ t ∈ ts, ¬ t.Spans i) → isBlank c = true ∧ c ≠ '\n'
  /-- A line feed is a token of its own unless it stands in a comment. -/
  newlines : ∀ i, cs[i]? = some '\n' →
    (∃ t ∈ ts, t.Spans i ∧ t.kind.isCommentOf (t.slice cs) = true) ∨
      ∃ t ∈ ts, t.kind = .newline ∧ t.offset = i ∧ t.stop = i + 1
  /-- A token that is no string, line feed or end stands for what it takes up. -/
  lexemes : ∀ t ∈ ts, t.kind ∉ [.string, .newline, .eof] → t.lexeme.toList = t.slice cs
  /-- The text is what the tokens take up, with blanks between them. -/
  woven : ∃ gaps : List (List Char), gaps.length = ts.length ∧
    (∀ gap ∈ gaps, ∀ c ∈ gap, isBlank c = true ∧ c ≠ '\n') ∧
    cs = (gaps.zip ts).flatMap fun (gap, t) => gap ++ t.slice cs

/-! ## Lexemes -/

/-- What a lexeme may be: blanks of one line, or a token in which a line feed stands only if it is
all of the token or if the token is a comment. -/
structure Lexeme.Apt (l : Lexeme) : Prop where
  ne_nil : l.text ≠ []
  blank : l.kind = none → ∀ c ∈ l.text, isLineBlank c = true
  lineFeed : ∀ kind, l.kind = some kind → '\n' ∈ l.text →
    kind.isCommentOf l.text = true ∨ kind = .newline ∧ l.text = ['\n']

theorem lineFeed_not_mem_stringText (cs : List Char) : '\n' ∉ (stringBody cs).1 := by
  fun_induction stringBody cs with
  | case1 | case2 | case3 | case4 => decide
  | case5 c rest hc text closed heq ih =>
    rw [heq] at ih
    simp only [List.mem_cons, not_or]
    exact ⟨by decide, fun h => hc h.symm, ih⟩
  | case6 c rest hline _ _ _ text closed heq ih =>
    rw [heq] at ih
    simp only [List.mem_cons, not_or]
    exact ⟨fun h => hline h.symm, ih⟩

theorem lineFeed_not_mem_numberTail (cs : List Char) : '\n' ∉ numberTail cs := by
  have hdigits (ds : List Char) : '\n' ∉ ds.takeWhile isAsciiDigit := fun h =>
    absurd (List.mem_takeWhile_imp h) (by decide)
  unfold numberTail
  dsimp only
  split
  · next d rest _ =>
    split
    · next hd =>
      have hne : d ≠ '\n' := by
        rintro rfl
        exact absurd hd (by decide)
      simp [hdigits, hne.symm]
    · exact hdigits cs
  · exact hdigits cs

theorem lineFeed_not_mem_symbol {c : Char} (hc : c ≠ '\n') (cs : List Char) :
    '\n' ∉ (symbol c cs).text := by
  unfold symbol
  split
  · cases withEquals? c <;> simp [hc.symm]
  · simp [hc.symm]

theorem lineFeed_slash {cs : List Char} {kind : Kind} (hkind : (slash cs).kind = some kind)
    (hmem : '\n' ∈ (slash cs).text) : kind.isCommentOf (slash cs).text = true := by
  revert hkind hmem
  unfold slash
  split
  · intro hkind _
    obtain rfl : Kind.comment = kind := Option.some.inj hkind
    rfl
  · next cs =>
    rcases blockComment cs with ⟨text, closed⟩
    intro hkind _
    obtain rfl : (if closed then Kind.comment else .unknown) = kind := Option.some.inj hkind
    cases closed <;> simp [Kind.isCommentOf]
  · intro _ hmem
    exact absurd hmem (lineFeed_not_mem_symbol (by decide) cs)

theorem lineFeed_scan {c : Char} {cs : List Char} {kind : Kind}
    (hkind : (scan c cs).kind = some kind) (hmem : '\n' ∈ (scan c cs).text) :
    kind.isCommentOf (scan c cs).text = true ∨ kind = .newline ∧ (scan c cs).text = ['\n'] := by
  have none_of {p : Char → Bool} {d : Char} (ds : List Char) (hd : d ≠ '\n') (hp : p '\n' = false) :
      '\n' ∉ d :: ds.takeWhile p := by
    rw [List.mem_cons, not_or]
    exact ⟨hd.symm, fun h => absurd (List.mem_takeWhile_imp h) (by simp [hp])⟩
  revert hkind hmem
  unfold scan
  split_ifs with hline hblank hslash hletter hdigit hquote hhash
  · intro hkind _
    obtain rfl : Kind.newline = kind := Option.some.inj hkind
    exact .inr ⟨rfl, by rw [hline]⟩
  · intro hkind
    cases hkind
  · exact fun hkind hmem => .inl (lineFeed_slash hkind hmem)
  · exact fun _ hmem => absurd hmem (none_of cs hline (by decide))
  · refine fun _ hmem => absurd hmem ?_
    rw [List.mem_cons, not_or]
    exact ⟨Ne.symm hline, lineFeed_not_mem_numberTail cs⟩
  · refine fun _ hmem => absurd hmem ?_
    rw [List.mem_cons, not_or]
    exact ⟨Ne.symm hline, lineFeed_not_mem_stringText cs⟩
  · intro _ hmem
    have hname := none_of (p := isColorChar) cs hline (by decide)
    rw [show (fun d => isAsciiDigit d || isLetter d) = isColorChar from rfl] at hmem
    cases htake : cs.takeWhile isColorChar with
    | nil =>
      rw [htake] at hmem
      exact absurd hmem (by simpa using Ne.symm hline)
    | cons d name =>
      rw [htake] at hmem hname
      exact absurd hmem hname
  · exact fun _ hmem => absurd hmem (lineFeed_not_mem_symbol hline cs)

theorem apt_scan (c : Char) (cs : List Char) : (scan c cs).Apt where
  ne_nil := by
    obtain ⟨body, -, htext, -⟩ := found_scan c cs
    simp [htext]
  blank := by
    intro hkind
    obtain ⟨-, rest, -, -, hfound⟩ := found_scan c cs
    generalize scan c cs = l at hkind hfound
    cases hfound (by simp [hkind]) with
    | blank hc hcs => exact List.forall_mem_cons.2 ⟨hc, hcs⟩
    | _ => cases hkind
  lineFeed _ := lineFeed_scan

theorem apt_of_mem_lexemesFrom {cs : List Char} {l : Lexeme} {skip : Nat}
    (h : l ∈ lexemesFrom skip cs) : l.Apt := by
  induction cs generalizing skip with
  | nil => cases skip <;> cases h
  | cons c cs ih =>
    cases skip with
    | succ skip => exact ih h
    | zero =>
      rcases List.mem_cons.1 h with rfl | h
      · exact apt_scan c cs
      · exact ih h

/-! ## Covering a text -/

/-- What a token that is not the end of its text may be. -/
structure Apt (t : Token) : Prop where
  kind_ne : t.kind ≠ .eof
  ne_empty : t.text ≠ ""
  lineFeed : '\n' ∈ t.text.toList →
    t.kind.isCommentOf t.text.toList = true ∨ t.kind = .newline ∧ t.text = "\n"

/-- From an offset on, a text consists of the tokens and of blanks between them. -/
inductive Covers : Nat → List Char → List Token → Prop
  | last {t : Token} (hk : t.kind = .eof) (ht : t.text = "") : Covers t.offset [] [t]
  | blank {n : Nat} {cs rest : List Char} {ts : List Token} (hcs : ∀ c ∈ cs, isLineBlank c = true)
      (h : Covers (n + cs.length) rest ts) : Covers n (cs ++ rest) ts
  | token {t : Token} {rest : List Char} {ts : List Token} (ht : t.Apt)
      (h : Covers t.stop rest ts) : Covers t.offset (t.text.toList ++ rest) (t :: ts)

theorem covers_place (k : Cursor) {ls : List Lexeme} (h : ∀ l ∈ ls, l.Apt ∧ l.kind ≠ some .eof) :
    Covers k.offset (textOf ls) (place k ls) := by
  induction ls generalizing k with
  | nil => exact .last (t := ⟨.eof, "", k.position, k.offset⟩) rfl rfl
  | cons l ls ih =>
    obtain ⟨⟨hl, heof⟩, hls⟩ := List.forall_mem_cons.1 h
    have hrest := ih (k.advance l.text) hls
    rw [Layout.offset_advance] at hrest
    obtain ⟨kind, text⟩ := l
    cases kind with
    | none => exact .blank (hl.blank rfl) hrest
    | some kind =>
      have htoken : Apt ⟨kind, String.ofList text, k.position, k.offset⟩ := by
        refine ⟨fun hk => heof (congrArg some hk), by simpa using hl.ne_nil, fun hmem => ?_⟩
        rw [String.toList_ofList] at hmem ⊢
        refine (hl.lineFeed kind rfl hmem).imp id fun ⟨hkind, htext⟩ => ⟨hkind, ?_⟩
        exact congrArg String.ofList htext
      have hstop : Token.stop ⟨kind, String.ofList text, k.position, k.offset⟩ =
          k.offset + text.length := by rw [stop, String.length_ofList]
      have hcovers := Covers.token htoken (hstop.symm ▸ hrest)
      rwa [String.toList_ofList] at hcovers

namespace Covers

variable {n : Nat} {cs : List Char} {ts : List Token}

theorem le_offset (h : Covers n cs ts) : ∀ t ∈ ts, n ≤ t.offset := by
  induction h with
  | last => exact List.forall_mem_singleton.2 (Nat.le_refl _)
  | blank _ _ ih => exact fun t ht => Nat.le_of_add_right_le (ih t ht)
  | token _ _ ih =>
    refine List.forall_mem_cons.2 ⟨Nat.le_refl _, fun t ht => ?_⟩
    exact Nat.le_trans (Nat.le_add_right _ _) (ih t ht)

theorem pairwise (h : Covers n cs ts) : ts.Pairwise fun t u => t.stop ≤ u.offset := by
  induction h with
  | last => exact List.pairwise_singleton _ _
  | blank _ _ ih => exact ih
  | token _ h ih => exact List.pairwise_cons.2 ⟨h.le_offset, ih⟩

theorem exists_last (h : Covers n cs ts) : ∃ front last, ts = front ++ [last] ∧
    last.kind = .eof ∧ last.offset = n + cs.length ∧ last.stop = n + cs.length ∧
      ∀ t ∈ front, t.Apt := by
  induction h with
  | @last t hk ht => exact ⟨[], t, rfl, hk, rfl, by simp [stop, ht], List.forall_mem_nil _⟩
  | blank _ _ ih =>
    obtain ⟨front, last, hts, hk, hoffset, hstop, hfront⟩ := ih
    rw [List.length_append, ← Nat.add_assoc]
    exact ⟨front, last, hts, hk, hoffset, hstop, hfront⟩
  | @token t rest ts ht _ ih =>
    obtain ⟨front, last, rfl, hk, hoffset, hstop, hfront⟩ := ih
    rw [List.length_append, ← Nat.add_assoc, String.length_toList]
    exact ⟨t :: front, last, rfl, hk, hoffset, hstop, List.forall_mem_cons.2 ⟨ht, hfront⟩⟩

/-- A token takes up its own text. -/
theorem text_eq (h : Covers n cs ts) (before : List Char) (hbefore : before.length = n) :
    ∀ t ∈ ts, t.slice (before ++ cs) = t.text.toList := by
  induction h generalizing before with
  | @last t hk ht => exact List.forall_mem_singleton.2 (by simp [slice, stop, ht])
  | @blank n cs rest ts _ _ ih =>
    rw [← List.append_assoc]
    exact ih _ (by rw [List.length_append, hbefore])
  | @token t rest ts _ _ ih =>
    refine List.forall_mem_cons.2 ⟨?_, ?_⟩
    · rw [slice, stop, Nat.add_sub_cancel_left, ← hbefore, List.drop_left, ← String.length_toList,
        List.take_left]
    · rw [← List.append_assoc]
      exact ih _ (by rw [List.length_append, hbefore, String.length_toList, stop])

/-- A character is a blank or belongs to a token. -/
theorem blank_or_spans (h : Covers n cs ts) {i : Nat} {c : Char} (hc : cs[i]? = some c) :
    isLineBlank c = true ∨ ∃ t ∈ ts, t.Spans (n + i) ∧ t.Apt ∧ c ∈ t.text.toList := by
  induction h generalizing i with
  | last => cases hc
  | @blank n cs rest ts hcs _ ih =>
    by_cases hi : i < cs.length
    · rw [List.getElem?_append_left hi] at hc
      exact .inl (hcs c (List.mem_of_getElem? hc))
    · rw [List.getElem?_append_right (Nat.not_lt.1 hi)] at hc
      rw [show n + i = n + cs.length + (i - cs.length) by omega]
      exact ih hc
  | @token t rest ts ht _ ih =>
    by_cases hi : i < t.text.toList.length
    · rw [List.getElem?_append_left hi] at hc
      rw [String.length_toList] at hi
      exact .inr ⟨t, List.mem_cons_self, ⟨Nat.le_add_right _ _, Nat.add_lt_add_left hi _⟩, ht,
        List.mem_of_getElem? hc⟩
    · rw [List.getElem?_append_right (Nat.not_lt.1 hi)] at hc
      refine (ih hc).imp_right fun ⟨u, hu, hspans, hrest⟩ =>
        ⟨u, List.mem_cons_of_mem _ hu, ?_, hrest⟩
      rw [String.length_toList] at hi hspans
      rwa [stop, show t.offset + t.text.length + (i - t.text.length) = t.offset + i by omega]
        at hspans

theorem exists_gaps (h : Covers n cs ts) : ∃ gaps : List (List Char), gaps.length = ts.length ∧
    (∀ gap ∈ gaps, ∀ c ∈ gap, isLineBlank c = true) ∧
      cs = (gaps.zip ts).flatMap fun (gap, t) => gap ++ t.text.toList := by
  induction h with
  | last hk ht => exact ⟨[[]], rfl, by simp, by simp [ht]⟩
  | blank hcs h ih =>
    obtain ⟨gaps, hlength, hgaps, rfl⟩ := ih
    obtain ⟨front, last, rfl, -⟩ := h.exists_last
    -- the blanks go into the first gap
    obtain ⟨gap, gaps, rfl⟩ : ∃ gap rest, gaps = gap :: rest :=
      List.exists_cons_of_length_pos (by simp [hlength])
    obtain ⟨t, ts, hts⟩ : ∃ t ts, front ++ [last] = t :: ts :=
      List.exists_cons_of_ne_nil (by simp)
    obtain ⟨hgap, hgaps⟩ := List.forall_mem_cons.1 hgaps
    rw [hts] at hlength ⊢
    exact ⟨(_ ++ gap) :: gaps, hlength, List.forall_mem_cons.2
      ⟨List.forall_mem_append.2 ⟨hcs, hgap⟩, hgaps⟩, by simp⟩
  | token _ _ ih =>
    obtain ⟨gaps, hlength, hgaps, rfl⟩ := ih
    exact ⟨[] :: gaps, congrArg (· + 1) hlength, List.forall_mem_cons.2 ⟨by simp, hgaps⟩,
      by simp⟩

end Covers

/-! ## Lexing -/

theorem isLineBlank_iff {c : Char} : isLineBlank c = true ↔ isBlank c = true ∧ c ≠ '\n' := by
  simp [isLineBlank, and_comm]

theorem lexeme_eq_text {t : Token} (h : t.kind ∉ [.string, .newline, .eof]) :
    t.lexeme = t.text := by
  unfold lexeme
  split
  · next hk => simp [hk] at h
  · next hk => simp [hk] at h
  · rfl

/-- The tokens of any source, readable or not, lose nothing of it. -/
theorem lossless_lexWithComments (source : String) :
    Lossless source.toList (lexWithComments source) := by
  have hcovers : Covers 0 source.toList (lexWithComments source) := by
    have hplace := covers_place .start fun l (hl : l ∈ lexemes source.toList) =>
      ⟨apt_of_mem_lexemesFrom hl, kind_ne_eof hl⟩
    rwa [textOf_lexemes] at hplace
  have htext := hcovers.text_eq [] rfl
  rw [List.nil_append] at htext
  refine ⟨hcovers.pairwise, ?_, fun i c hc hnone => ?_, fun i hi => ?_, fun t ht hk => ?_, ?_⟩
  · obtain ⟨front, last, hts, hk, hoffset, hstop, hfront⟩ := hcovers.exists_last
    rw [Nat.zero_add] at hoffset hstop
    refine ⟨front, last, hts, hk, hoffset, hstop, fun t ht => ⟨(hfront t ht).kind_ne, ?_⟩⟩
    refine Nat.lt_add_of_pos_right (Nat.pos_of_ne_zero fun hlength => (hfront t ht).ne_empty ?_)
    simpa using hlength
  · refine isLineBlank_iff.1 ((hcovers.blank_or_spans hc).resolve_right ?_)
    rintro ⟨t, ht, hspans, -⟩
    rw [Nat.zero_add] at hspans
    exact hnone t ht hspans
  · obtain hblank | ⟨t, ht, hspans, hapt, hmem⟩ := hcovers.blank_or_spans hi
    · exact absurd hblank (by decide)
    rw [Nat.zero_add] at hspans
    rcases hapt.lineFeed hmem with hcomment | ⟨hkind, hlineFeed⟩
    · exact .inl ⟨t, ht, hspans, by rwa [htext t ht]⟩
    · have hstop : t.stop = t.offset + 1 := by rw [stop, hlineFeed]; rfl
      obtain ⟨hle, hlt⟩ := hspans
      exact .inr ⟨t, ht, hkind, by omega, by omega⟩
  · rw [lexeme_eq_text hk, htext t ht]
  · obtain ⟨gaps, hlength, hgaps, hcs⟩ := hcovers.exists_gaps
    refine ⟨gaps, hlength, fun gap hgap c hc => isLineBlank_iff.1 (hgaps gap hgap c hc), ?_⟩
    refine hcs.trans (List.flatMap_congr fun p hmem => ?_)
    exact congrArg (p.1 ++ ·) (htext p.2 (List.of_mem_zip (b := p.2) hmem).2).symm

end Easel.Token
