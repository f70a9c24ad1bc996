import Easel.Proofs.Layout.Lines

/-!
# Reading a formatted line again

A line in canonical layout is read again as it was set, but for numbers around a point: in
`1 . 5.2` no blank stays, and `1.5.2` is read as `1.5`, a point and `2`.  `glue` says what happens to
such numbers.  `readable_glue` is the main result: after `glue` the lexemes of a formatted line are
the ones that are read from it, and it changes neither the text nor the layout.
-/

namespace Easel.Layout

open Text
open Token (Kind Lexeme textOf Found Readable Stops stops_cons isWordChar isColorChar)

/-! ## Lines in canonical layout -/

/-- What follows a token on its line is in canonical layout: a blank stands before a token exactly
if the token is set apart. -/
inductive Canonical : Kind → List Lexeme → Prop
  | nil (before : Kind) : Canonical before []
  | near {before kind : Kind} {text : List Char} {ls : List Lexeme}
      (h : apartBy before kind false = false) (hls : Canonical kind ls) :
      Canonical before (⟨some kind, text⟩ :: ls)
  | apart {before kind : Kind} {text : List Char} {ls : List Lexeme}
      (h : apartBy before kind true = true) (hls : Canonical kind ls) :
      Canonical before (space :: ⟨some kind, text⟩ :: ls)

theorem canonical_cons {before kind : Kind} {text : List Char} {ls : List Lexeme} :
    Canonical before (⟨some kind, text⟩ :: ls) ↔
      apartBy before kind false = false ∧ Canonical kind ls :=
  ⟨fun | .near h hls => ⟨h, hls⟩, fun ⟨h, hls⟩ => .near h hls⟩

theorem apartBy_true_of {before kind : Kind} {spaced : Bool} (h : apartBy before kind spaced = true) :
    apartBy before kind true = true := by
  cases spaced with
  | true => exact h
  | false =>
    unfold apartBy at h ⊢
    grind

theorem apartBy_false_of {before kind : Kind} {spaced : Bool}
    (h : apartBy before kind spaced = false) : apartBy before kind false = false := by
  cases hfalse : apartBy before kind false with
  | false => rfl
  | true =>
    cases spaced with
    | false => rw [← h, hfalse]
    | true => rw [apartBy_true_of hfalse] at h; cases h

theorem canonical_tailOf (before : Kind) (spaced : Bool) (ls : List Lexeme) :
    Canonical before (tailOf before spaced ls) := by
  induction ls generalizing before spaced with
  | nil => exact .nil before
  | cons l ls ih =>
    obtain ⟨kind, text⟩ := l
    cases kind with
    | none => exact ih before true
    | some kind =>
      rw [tailOf_some]
      split_ifs with h
      · exact .apart (apartBy_true_of h) (ih kind false)
      · exact .near (apartBy_false_of (by simpa using h)) (ih kind false)

theorem tailOf_of_canonical {before : Kind} {ls : List Lexeme} (h : Canonical before ls) :
    tailOf before false ls = ls := by
  induction h with
  | nil => rfl
  | near h _ ih =>
    rw [tailOf_some, if_neg (by simp [h]), ih]
    rfl
  | apart h _ ih =>
    rw [space, tailOf_none, tailOf_some, if_pos h, ih]
    rfl

/-- A line that starts with a token and goes on in canonical layout. -/
def CanonicalLine (ls : List Lexeme) : Prop :=
  ls = [] ∨ ∃ kind text rest, ls = ⟨some kind, text⟩ :: rest ∧ Canonical kind rest

theorem canonicalLine_lineOf (ls : List Lexeme) : CanonicalLine (lineOf ls) := by
  induction ls with
  | nil => exact .inl rfl
  | cons l ls ih =>
    obtain ⟨kind, text⟩ := l
    cases kind with
    | none => exact ih
    | some kind => exact .inr ⟨kind, text, _, rfl, canonical_tailOf kind false ls⟩

theorem lineOf_of_canonicalLine {ls : List Lexeme} (h : CanonicalLine ls) : lineOf ls = ls := by
  rcases h with rfl | ⟨kind, text, rest, rfl, hrest⟩
  · rfl
  · exact congrArg (_ :: ·) (tailOf_of_canonical hrest)

/-! ## Numbers around a point -/

/-- The lexemes that are read from the text of a line in canonical layout: a number without a
fraction takes a point and the digits behind it. -/
def glue : List Lexeme → List Lexeme
  | ⟨some .number, a⟩ :: ⟨some .dot, point⟩ :: ⟨some .number, b⟩ :: rest =>
    if '.' ∈ a then ⟨some .number, a⟩ :: glue (⟨some .dot, point⟩ :: ⟨some .number, b⟩ :: rest)
    else
      match b.dropWhile (· != '.') with
      | [] => ⟨some .number, a ++ point ++ b⟩ :: glue rest
      | c :: fraction =>
        ⟨some .number, a ++ point ++ b.takeWhile (· != '.')⟩ :: ⟨some .dot, [c]⟩ ::
          glue (⟨some .number, fraction⟩ :: rest)
  | l :: rest => l :: glue rest
  | [] => []
termination_by ls => ls.length

theorem textOf_glue (ls : List Lexeme) : textOf (glue ls) = textOf ls := by
  fun_induction glue ls with
  | case1 a point b rest ha ih => simp_all
  | case2 a point b rest ha hb ih => simp_all
  | case3 a point b rest ha c fraction hb ih =>
    have hsplit := List.takeWhile_append_dropWhile (p := (· != '.')) (l := b)
    rw [hb] at hsplit
    simp only [Token.textOf_cons, ih, List.append_assoc]
    nth_rewrite 2 [← hsplit]
    simp
  | case4 l rest _ ih => simp_all
  | case5 => rfl

theorem exists_glue_cons (kind : Kind) (text : List Char) (ls : List Lexeme) :
    ∃ text' ls', glue (⟨some kind, text⟩ :: ls) = ⟨some kind, text'⟩ :: ls' := by
  rw [glue.eq_def]
  split
  · next a point b rest heq =>
    obtain ⟨⟨⟩, -⟩ := List.cons.inj heq
    split_ifs
    · exact ⟨_, _, rfl⟩
    · split <;> exact ⟨_, _, rfl⟩
  · next heq =>
    obtain ⟨rfl, -⟩ := List.cons.inj heq
    exact ⟨_, _, rfl⟩
  · next heq => cases heq

theorem canonical_glue {before : Kind} {ls : List Lexeme} (h : Canonical before ls) :
    Canonical before (glue ls) := by
  fun_induction glue ls generalizing before with
  | case1 a point b rest ha ih =>
    obtain ⟨hnear, hls⟩ := canonical_cons.1 h
    exact .near hnear (ih hls)
  | case2 a point b rest ha hb ih =>
    obtain ⟨hnear, hls⟩ := canonical_cons.1 h
    exact .near hnear (ih (canonical_cons.1 (canonical_cons.1 hls).2).2)
  | case3 a point b rest ha c fraction hb ih =>
    obtain ⟨hnear, hls⟩ := canonical_cons.1 h
    obtain ⟨hdot, hls⟩ := canonical_cons.1 hls
    exact .near hnear (.near hdot (ih (canonical_cons.2 (canonical_cons.1 hls))))
  | case4 l rest _ ih =>
    cases h with
    | near hnear hls => exact .near hnear (ih hls)
    | @apart _ kind text ls hapart hls =>
      -- the first token keeps its kind, and nothing stands apart from a point
      have hafter : Canonical .dot (glue (⟨some kind, text⟩ :: ls)) := ih (.near rfl hls)
      obtain ⟨text', ls', hglue⟩ := exists_glue_cons kind text ls
      rw [hglue] at hafter ⊢
      exact .apart hapart (canonical_cons.1 hafter).2
  | case5 => exact h

theorem canonicalLine_glue {ls : List Lexeme} (h : CanonicalLine ls) : CanonicalLine (glue ls) := by
  rcases h with rfl | ⟨kind, text, rest, rfl, hrest⟩
  · exact .inl (by rw [glue])
  · have hafter : Canonical .dot (glue (⟨some kind, text⟩ :: rest)) :=
      canonical_glue (.near rfl hrest)
    obtain ⟨text', ls', hglue⟩ := exists_glue_cons kind text rest
    rw [hglue] at hafter ⊢
    exact .inr ⟨kind, text', ls', rfl, (canonical_cons.1 hafter).2⟩

theorem glue_eq_nil_iff {ls : List Lexeme} : glue ls = [] ↔ ls = [] := by
  refine ⟨fun h => ?_, fun h => by rw [h, glue]⟩
  fun_induction glue ls with
  | case1 | case2 | case3 | case4 => cases h
  | case5 => rfl

theorem foldl_depthBy_glue (depth : Nat) (ls : List Lexeme) :
    (kindsOf (glue ls)).foldl depthBy depth = (kindsOf ls).foldl depthBy depth := by
  fun_induction glue ls generalizing depth with
  | case1 a point b rest ha ih => exact ih depth
  | case2 a point b rest ha hb ih => exact ih depth
  | case3 a point b rest ha c fraction hb ih => exact ih depth
  | case4 l rest _ ih =>
    rw [kindsOf, kindsOf, List.filterMap_cons, List.filterMap_cons]
    cases l.kind with
    | none => exact ih depth
    | some kind => exact ih _
  | case5 => rfl

theorem depthAt_glue (depth : Nat) (ls : List Lexeme) : depthAt depth (glue ls) = depthAt depth ls := by
  have hkinds : (kindsOf (glue ls)).takeWhile closes = (kindsOf ls).takeWhile closes := by
    fun_induction glue ls with
    | case1 | case2 | case3 => rfl
    | case4 l rest _ ih =>
      rw [kindsOf, kindsOf, List.filterMap_cons, List.filterMap_cons]
      cases l.kind with
      | none => exact ih
      | some kind =>
        rw [List.takeWhile_cons, List.takeWhile_cons]
        exact if_congr Iff.rfl (congrArg (kind :: ·) ih) rfl
    | case5 => rfl
  rw [depthAt, depthAt, hkinds]

/-! ## Lexemes before other text -/

/-- As `Found`, but a number without a fraction may stand before a point and a digit. -/
def Loosely (l : Lexeme) (rest : List Char) : Prop :=
  Found l rest ∨ ∃ c cs, l = ⟨some .number, c :: cs⟩ ∧ (∀ d ∈ c :: cs, isAsciiDigit d = true) ∧
    Stops isAsciiDigit rest

/-- Characters that belong to no lexeme before them but a comment. -/
def breaks : List Char := ['\n', ' ', ',', ';', '.', ')', ']']

theorem breaks_class : ∀ c ∈ breaks, isWordChar c = false ∧ isAsciiDigit c = false ∧
    isColorChar c = false ∧ (c == '/' || c == '*') = false ∧ (c == '=') = false := by
  have hall : breaks.all (fun c => !isWordChar c && !isAsciiDigit c && !isColorChar c &&
      !(c == '/' || c == '*') && !(c == '=')) = true := by decide
  intro c hc
  have hclass := List.all_eq_true.1 hall c hc
  simp only [Bool.and_eq_true, Bool.not_eq_true'] at hclass
  obtain ⟨⟨⟨⟨hword, hdigit⟩, hcolor⟩, hslash⟩, hequals⟩ := hclass
  exact ⟨hword, hdigit, hcolor, hslash, hequals⟩

theorem loosely_before_break {l : Lexeme} {rest : List Char} (h : Found l rest) (hk : l.kind ≠ none)
    (hcomment : ∀ cs, l.text ≠ '/' :: '/' :: cs) {c : Char} (hc : c ∈ breaks) (more : List Char) :
    Loosely l (c :: more) := by
  obtain ⟨hword, hdigit, hcolor, hslash, hequals⟩ := breaks_class c hc
  cases h with
  | newline => exact .inl (.newline _)
  | blank => exact absurd rfl hk
  | lineComment => exact absurd rfl (hcomment _)
  | blockComment h => exact .inl (.blockComment h _)
  | word h hcs => exact .inl (.word h hcs (stops_cons.2 hword))
  | integer h hcs => exact .inr ⟨_, _, rfl, List.forall_mem_cons.2 ⟨h, hcs⟩, stops_cons.2 hdigit⟩
  | decimal h hcs hd hds => exact .inl (.decimal h hcs hd hds (stops_cons.2 hdigit))
  | string h => exact .inl (.string h _)
  | color hcs => exact .inl (.color hcs (stops_cons.2 hcolor))
  | equals h => exact .inl (.equals h _)
  | symbol h hu =>
    exact .inl (.symbol h hu (fun _ => stops_cons.2 hslash) fun _ => stops_cons.2 hequals)

/-- But for a number, the character behind it decides whether a lexeme is complete. -/
theorem loosely_of_head {l : Lexeme} {rest more : List Char} (h : Found l rest)
    (hhead : more.head? = rest.head?) : Loosely l more := by
  have stops {p : Char → Bool} (hrest : Stops p rest) : Stops p more := by
    rwa [Stops, hhead]
  cases h with
  | newline => exact .inl (.newline _)
  | blank h hcs hrest => exact .inl (.blank h hcs (stops hrest))
  | lineComment hcs hrest => exact .inl (.lineComment hcs (stops hrest))
  | blockComment h => exact .inl (.blockComment h _)
  | word h hcs hrest => exact .inl (.word h hcs (stops hrest))
  | integer h hcs hrest => exact .inr ⟨_, _, rfl, List.forall_mem_cons.2 ⟨h, hcs⟩, stops hrest⟩
  | decimal h hcs hd hds hrest => exact .inl (.decimal h hcs hd hds (stops hrest))
  | string h => exact .inl (.string h _)
  | color hcs hrest => exact .inl (.color hcs (stops hrest))
  | equals h => exact .inl (.equals h _)
  | symbol h hu hslash hequals =>
    exact .inl (.symbol h hu (fun hc => stops (hslash hc)) fun hc => stops (hequals hc))

/-- Whether a token of this kind joins what follows it. -/
def joinsNext : Kind → Bool
  | .lparen | .lbracket | .dot => true
  | _ => false

/-- Whether a token of this kind joins what precedes it. -/
def joinsLast : Kind → Bool
  | .comma | .semicolon | .dot | .rparen | .rbracket => true
  | _ => false

theorem joins_of_apartBy {before kind : Kind} (h : apartBy before kind true = false) :
    joinsNext before = true ∨ joinsLast kind = true := by
  unfold apartBy at h
  unfold joinsNext joinsLast
  grind

/-- A token that is a sign by itself: which sign it is. -/
theorem found_sign {kind : Kind} {text rest : List Char} (h : Found ⟨some kind, text⟩ rest)
    (hk : joinsNext kind = true ∨ joinsLast kind = true) :
    ∃ c, text = [c] ∧ Token.punctuation c = kind ∧ kind ≠ .unknown := by
  have word (hw : kind.isWord = true) : False := by
    cases kind <;> simp_all [joinsNext, joinsLast, Kind.isWord]
  cases h with
  | word => exact absurd (Token.isWord_wordKind _) word
  | equals h =>
    unfold Token.withEquals? at h
    split at h <;> cases h <;> simp [joinsNext, joinsLast] at hk
  | symbol h hu => exact ⟨_, rfl, h, hu⟩
  | _ => simp [joinsNext, joinsLast] at hk

theorem found_of_joinsNext {l : Lexeme} {kind : Kind} {rest : List Char} (h : Found l rest)
    (hl : l.kind = some kind) (hk : joinsNext kind = true) (more : List Char) : Found l more := by
  obtain ⟨kind', text⟩ := l
  subst hl
  obtain ⟨c, rfl, rfl, hu⟩ := found_sign h (.inl hk)
  refine .symbol rfl hu ?_ ?_
  · rintro rfl
    cases hk
  · intro hc
    exfalso
    revert hk hc
    unfold Token.punctuation Token.withEquals?
    split <;> simp [joinsNext]

theorem exists_break_of_joinsLast {kind : Kind} {text rest : List Char}
    (h : Found ⟨some kind, text⟩ rest) (hk : joinsLast kind = true) : ∃ c ∈ breaks, text = [c] := by
  obtain ⟨c, rfl, rfl, -⟩ := found_sign h (.inr hk)
  refine ⟨c, ?_, rfl⟩
  revert hk
  unfold Token.punctuation
  split <;> simp [joinsLast, breaks]

/-! ## A line before its end -/

/-- Each lexeme stands loosely before the text of those behind it. -/
inductive Loose (after : List Char) : List Lexeme → Prop
  | nil : Loose after []
  | cons {l : Lexeme} {ls : List Lexeme} (h : Loosely l (textOf ls ++ after)) (hls : Loose after ls) :
      Loose after (l :: ls)

section Line

variable {after : List Char} (more : List Char)

/-- After a blank, what follows a token in canonical layout breaks off the token, unless that joins
what follows. -/
theorem break_of_spaced (before : Kind) {ls : List Lexeme} (h : Readable after ls) :
    joinsNext before = true ∨
      ∃ c ∈ breaks, (textOf (tailOf before true ls) ++ '\n' :: more).head? = some c := by
  induction h with
  | nil => exact .inr ⟨'\n', by decide, rfl⟩
  | @cons l ls hfound _ ih =>
    obtain ⟨_ | kind, text⟩ := l
    · exact ih
    rw [tailOf_some]
    split_ifs with hapart
    · exact .inr ⟨' ', by decide, rfl⟩
    refine (joins_of_apartBy (by simpa using hapart)).imp_right fun hlast => ?_
    obtain ⟨c, hc, rfl⟩ := exists_break_of_joinsLast hfound hlast
    exact ⟨c, hc, rfl⟩

/-- A comment up to the end of the line is the last lexeme of its line. -/
theorem eq_nil_of_lineComment {ls : List Lexeme} (h : Readable after ls)
    (hline : ∀ l ∈ ls, isLineEnd l = false) (hstop : Stops (· != '\n') (textOf ls ++ after)) :
    ls = [] := by
  cases h with
  | nil => rfl
  | @cons l ls hfound hls =>
    obtain ⟨kind, text⟩ := l
    obtain ⟨c, cs, rfl⟩ := List.exists_cons_of_ne_nil hfound.text_ne_nil
    have hkind : kind ≠ some .newline := by
      simpa [isLineEnd] using hline _ List.mem_cons_self
    have hc : (c != '\n') = false := hstop c rfl
    exact absurd (by simpa using hc) (hfound.first_ne_lineFeed hkind)

/-- A token stands loosely before what follows it in canonical layout. -/
theorem loosely_before_tailOf {l : Lexeme} {kind : Kind} {ls : List Lexeme}
    (hfound : Found l (textOf ls ++ after)) (hl : l.kind = some kind) (h : Readable after ls)
    (hline : ∀ l ∈ ls, isLineEnd l = false) :
    Loosely l (textOf (tailOf kind false ls) ++ '\n' :: more) := by
  by_cases hcomment : ∃ cs, l.text = '/' :: '/' :: cs
  · obtain ⟨cs, hcs⟩ := hcomment
    obtain ⟨hbefore, hrest⟩ := hfound.lineComment_of_first hcs
    rw [eq_nil_of_lineComment h hline hrest]
    exact .inl (hbefore _ (by simp [Stops, tailOf]))
  have notComment : ∀ cs, l.text ≠ '/' :: '/' :: cs := fun cs hcs => hcomment ⟨cs, hcs⟩
  have breaks {rest : List Char} {c : Char} (hc : c ∈ breaks) (hhead : rest.head? = some c) :
      Loosely l rest := by
    obtain ⟨rest', rfl⟩ := List.head?_eq_some_iff.1 hhead
    exact loosely_before_break hfound (by simp [hl]) notComment hc rest'
  cases h with
  | nil => exact breaks (c := '\n') (by decide) rfl
  | @cons l' ls' hfound' hls' =>
    obtain ⟨_ | kind', text⟩ := l'
    · rcases break_of_spaced more kind hls' with hjoin | ⟨c, hc, hhead⟩
      · exact .inl (found_of_joinsNext hfound hl hjoin _)
      · exact breaks hc hhead
    · rw [tailOf_some]
      split_ifs with hapart
      · exact breaks (c := ' ') (by decide) rfl
      · obtain ⟨c, cs, rfl⟩ := List.exists_cons_of_ne_nil hfound'.text_ne_nil
        exact loosely_of_head hfound rfl

theorem found_space {l : Lexeme} {rest more : List Char} (h : Found l rest) (hk : l.kind ≠ none) :
    Found space (l.text ++ more) := by
  obtain ⟨kind, text⟩ := l
  obtain ⟨c, cs, rfl⟩ := List.exists_cons_of_ne_nil h.text_ne_nil
  exact .blank (by decide) (by simp) (stops_cons.2 (h.isLineBlank_first hk))

theorem loose_tailOf {before : Kind} {spaced : Bool} {ls : List Lexeme} (h : Readable after ls)
    (hline : ∀ l ∈ ls, isLineEnd l = false) :
    Loose ('\n' :: more) (tailOf before spaced ls) := by
  induction h generalizing before spaced with
  | nil => exact .nil
  | @cons l ls hfound hls ih =>
    obtain ⟨-, hline'⟩ := List.forall_mem_cons.1 hline
    obtain ⟨_ | kind, text⟩ := l
    · exact ih hline'
    have htail : Loose ('\n' :: more) (⟨some kind, text⟩ :: tailOf kind false ls) :=
      .cons (loosely_before_tailOf more hfound rfl hls hline') (ih hline')
    rw [tailOf_some]
    split_ifs
    · refine .cons (.inl ?_) htail
      rw [List.append_eq, List.nil_append, Token.textOf_cons, List.append_assoc]
      exact found_space hfound (by simp)
    · exact htail

/-- A line that can be read stands loosely before its end once it is in canonical layout. -/
theorem loose_lineOf {ls : List Lexeme} (h : Readable after ls)
    (hline : ∀ l ∈ ls, isLineEnd l = false) : Loose ('\n' :: more) (lineOf ls) := by
  induction h with
  | nil => exact .nil
  | @cons l ls hfound hls ih =>
    obtain ⟨-, hline'⟩ := List.forall_mem_cons.1 hline
    obtain ⟨_ | kind, text⟩ := l
    · exact ih hline'
    · exact .cons (loosely_before_tailOf more hfound rfl hls hline') (loose_tailOf more hls hline')

end Line

/-! ## Reading a line again -/

theorem Loose.tail {after : List Char} {l : Lexeme} {ls : List Lexeme} (h : Loose after (l :: ls)) :
    Loosely l (textOf ls ++ after) ∧ Loose after ls :=
  match h with
  | .cons h hls => ⟨h, hls⟩

/-- The characters of a number: digits, or digits around a point. -/
theorem Loosely.number {a rest : List Char} (h : Loosely ⟨some .number, a⟩ rest) :
    Stops isAsciiDigit rest ∧ ∃ c cs, (∀ d ∈ c :: cs, isAsciiDigit d = true) ∧
      (a = c :: cs ∨ ∃ d ds, (∀ x ∈ d :: ds, isAsciiDigit x = true) ∧ a = c :: (cs ++ '.' :: d :: ds)) := by
  rcases h with h | ⟨c, cs, heq, hcs, hrest⟩
  · generalize hl : (⟨some .number, a⟩ : Lexeme) = l at h
    cases h with
    | integer hc hcs hrest =>
      cases hl
      exact ⟨hrest, _, _, List.forall_mem_cons.2 ⟨hc, hcs⟩, .inl rfl⟩
    | decimal hc hcs hd hds hrest =>
      cases hl
      exact ⟨hrest, _, _, List.forall_mem_cons.2 ⟨hc, hcs⟩,
        .inr ⟨_, _, List.forall_mem_cons.2 ⟨hd, hds⟩, rfl⟩⟩
    | @word c cs =>
      have := Token.isWord_wordKind (c :: cs)
      rw [← Option.some.inj (Lexeme.mk.inj hl).1] at this
      cases this
    | equals h =>
      have := Token.isSign_withEquals h
      rw [← Option.some.inj (Lexeme.mk.inj hl).1] at this
      cases this
    | symbol h hu =>
      have := h ▸ Token.isSign_punctuation (h ▸ hu)
      rw [← Option.some.inj (Lexeme.mk.inj hl).1] at this
      cases this
    | _ => cases hl
  · cases heq
    exact ⟨hrest, c, cs, hcs, .inl rfl⟩

theorem point_not_mem {cs : List Char} (h : ∀ d ∈ cs, isAsciiDigit d = true) : '.' ∉ cs :=
  fun hmem => absurd (h _ hmem) (by decide)

theorem ne_point_of_digits {cs : List Char} (h : ∀ d ∈ cs, isAsciiDigit d = true) :
    ∀ d ∈ cs, (d != '.') = true := by
  intro d hd
  simpa using fun heq : d = '.' => point_not_mem h (heq ▸ hd)

/-- Cutting a number at its point. -/
theorem cut_at_point {cs ds : List Char} (h : ∀ d ∈ cs, isAsciiDigit d = true) :
    (cs ++ '.' :: ds).takeWhile (· != '.') = cs ∧
      (cs ++ '.' :: ds).dropWhile (· != '.') = '.' :: ds := by
  have hcs := ne_point_of_digits h
  have hstop : Stops (· != '.') ('.' :: ds) := by simp [Stops]
  exact ⟨Token.takeWhile_append_of_stops hcs hstop, Token.dropWhile_append_of_stops hcs hstop⟩

theorem Loosely.dot {text rest : List Char} (h : Loosely ⟨some .dot, text⟩ rest) : text = ['.'] := by
  rcases h with h | ⟨c, cs, heq, -⟩
  · obtain ⟨c, rfl, hc, -⟩ := found_sign h (.inl rfl)
    revert hc
    unfold Token.punctuation
    split <;> simp
  · cases heq

theorem Loosely.exists_found {l : Lexeme} {rest : List Char} (h : Loosely l rest) :
    ∃ rest', Found l rest' := by
  rcases h with h | ⟨c, cs, rfl, hcs, -⟩
  · exact ⟨rest, h⟩
  · obtain ⟨hc, hcs⟩ := List.forall_mem_cons.1 hcs
    exact ⟨[], .integer hc hcs (Token.stops_nil _) (by simp)⟩

/-- Lexemes before a line end whose text starts with a character start with a lexeme that does. -/
theorem Loose.exists_first {ls : List Lexeme} {more rest : List Char} {c : Char}
    (h : Loose ('\n' :: more) ls) (htext : textOf ls ++ '\n' :: more = c :: rest) (hc : c ≠ '\n') :
    ∃ kind cs ls' behind, ls = ⟨kind, c :: cs⟩ :: ls' ∧ Found ⟨kind, c :: cs⟩ behind ∧
      rest = cs ++ (textOf ls' ++ '\n' :: more) := by
  cases h with
  | nil => exact absurd (List.cons.inj htext).1.symm hc
  | @cons l ls hl hls =>
    obtain ⟨behind, hfound⟩ := hl.exists_found
    obtain ⟨kind, text⟩ := l
    obtain ⟨d, cs, rfl⟩ := List.exists_cons_of_ne_nil hfound.text_ne_nil
    obtain ⟨rfl, hrest⟩ := List.cons.inj htext
    exact ⟨kind, cs, ls, behind, rfl, hfound, hrest.symm.trans (List.append_assoc _ _ _)⟩

/-- A number without a fraction is complete if no point and number follow it on its line. -/
theorem found_of_loosely {l : Lexeme} {ls : List Lexeme} {more : List Char}
    (h : Loosely l (textOf ls ++ '\n' :: more)) (hls : Loose ('\n' :: more) ls)
    (hglue : ∀ point b rest, l.kind = some .number →
      ls ≠ ⟨some .dot, point⟩ :: ⟨some .number, b⟩ :: rest) :
    Found l (textOf ls ++ '\n' :: more) := by
  rcases h with h | ⟨c, cs, rfl, hcs, hrest⟩
  · exact h
  obtain ⟨hc, hcs⟩ := List.forall_mem_cons.1 hcs
  refine .integer hc hcs hrest fun after hafter d hd => ?_
  obtain ⟨kind, cs', ls', _, rfl, hpoint, rfl⟩ := hls.exists_first hafter (by decide)
  obtain ⟨rfl, rfl⟩ := hpoint.eq_dot_of_first
  obtain ⟨after', hafter'⟩ := List.head?_eq_some_iff.1 hd
  by_contra hnot
  have hdigit : isAsciiDigit d = true := by simpa using hnot
  have hne : d ≠ '\n' := by
    rintro rfl
    exact absurd hdigit (by decide)
  obtain ⟨kind, b, ls'', _, rfl, hnumber, -⟩ := hls.tail.2.exists_first hafter' hne
  obtain rfl := hnumber.eq_number_of_first hdigit
  exact hglue _ _ _ rfl rfl

/-- A number without a fraction, and which digits it has. -/
theorem Loosely.integer {a rest : List Char} (h : Loosely ⟨some .number, a⟩ rest) (ha : '.' ∉ a) :
    ∃ c cs, a = c :: cs ∧ ∀ d ∈ c :: cs, isAsciiDigit d = true := by
  obtain ⟨-, c, cs, hcs, rfl | ⟨d, ds, -, rfl⟩⟩ := h.number
  · exact ⟨c, cs, rfl, hcs⟩
  · simp at ha

theorem found_decimal {c d : Char} {cs ds rest : List Char}
    (hcs : ∀ x ∈ c :: cs, isAsciiDigit x = true) (hds : ∀ x ∈ d :: ds, isAsciiDigit x = true)
    (hrest : Stops isAsciiDigit rest) :
    Found ⟨some .number, c :: cs ++ ['.'] ++ (d :: ds)⟩ rest := by
  obtain ⟨hc, hcs⟩ := List.forall_mem_cons.1 hcs
  obtain ⟨hd, hds⟩ := List.forall_mem_cons.1 hds
  rw [List.append_assoc]
  exact .decimal hc hcs hd hds hrest

/-- After `glue` the lexemes of a formatted line are the ones that are read from it. -/
theorem readable_glue {ls : List Lexeme} {more : List Char} (h : Loose ('\n' :: more) ls) :
    Readable ('\n' :: more) (glue ls) := by
  fun_induction glue ls with
  | case1 a point b rest ha ih =>
    obtain ⟨hl, hls⟩ := h.tail
    refine .cons ?_ (ih hls)
    rw [textOf_glue]
    rcases hl with hl | ⟨c, cs, heq, hcs, -⟩
    · exact hl
    · cases heq
      exact absurd ha (point_not_mem hcs)
  | case2 a point b rest ha hb ih =>
    obtain ⟨hl, hls⟩ := h.tail
    obtain ⟨hdot, hls⟩ := hls.tail
    obtain ⟨hnumber, hls⟩ := hls.tail
    refine .cons ?_ (ih hls)
    rw [textOf_glue]
    obtain rfl := hdot.dot
    obtain ⟨c, cs, rfl, hcs⟩ := hl.integer ha
    obtain ⟨hrest, d, ds, hds, rfl | ⟨x, xs, -, rfl⟩⟩ := hnumber.number
    · exact found_decimal hcs hds hrest
    · rw [← List.cons_append, (cut_at_point hds).2] at hb
      cases hb
  | case3 a point b rest ha c fraction hb ih =>
    obtain ⟨hl, hafter⟩ := h.tail
    obtain ⟨hdot, hafter'⟩ := hafter.tail
    obtain ⟨hnumber, hls⟩ := hafter'.tail
    obtain rfl := hdot.dot
    obtain ⟨x, xs, rfl, hxs⟩ := hl.integer ha
    obtain ⟨hrest, y, ys, hys, rfl | ⟨d, ds, hds, rfl⟩⟩ := hnumber.number
    · rw [List.dropWhile_eq_nil_iff.2 (ne_point_of_digits hys)] at hb
      cases hb
    rw [← List.cons_append, (cut_at_point hys).2] at hb
    obtain ⟨rfl, rfl⟩ := List.cons.inj hb
    rw [← List.cons_append, (cut_at_point hys).1]
    refine .cons (found_decimal hxs hys (stops_cons.2 (by decide))) (.cons ?_ (ih ?_))
    · obtain ⟨_, hfound⟩ := hdot.exists_found
      exact found_of_joinsNext hfound rfl rfl _
    · exact .cons (.inr ⟨d, ds, rfl, hds, hrest⟩) hls
  | case4 l rest hpattern ih =>
    obtain ⟨hl, hls⟩ := h.tail
    refine .cons ?_ (ih hls)
    rw [textOf_glue]
    refine found_of_loosely hl hls fun point b rest' hk hrest => ?_
    obtain ⟨kind, a⟩ := l
    subst hk
    exact hpattern a point b rest' rfl hrest
  | case5 => exact .nil

end Easel.Layout
