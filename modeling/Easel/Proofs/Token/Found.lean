import Easel.Token.Lexer
import Mathlib.Data.List.TakeWhile
import Mathlib.Tactic.Common

/-!
# The lexemes of a text

`Found l rest` says by rules, without a scanner, that `l` is a lexeme other than an unknown one and
that no character of the text `rest` behind it belongs to it.  The scanner finds exactly these
lexemes: `found_scan` and `scan_of_found`.  A list of lexemes is `Readable` if each is found before
the text of those behind it, and then they are the lexemes of their text (`lexemes_textOf`).
-/

namespace Easel.Token

open Text

/-! ## Characters -/

/-- A blank that does not end the line. -/
def isLineBlank (c : Char) : Bool := c != '\n' && isBlank c

/-- A character of a color after its hash sign. -/
def isColorChar (c : Char) : Bool := isAsciiDigit c || isLetter c

/-- The text does not go on with a character of a class. -/
def Stops (p : Char → Bool) (rest : List Char) : Prop := ∀ c ∈ rest.head?, p c = false

theorem stops_nil (p : Char → Bool) : Stops p [] := by simp [Stops]

theorem stops_cons {p : Char → Bool} {c : Char} {rest : List Char} :
    Stops p (c :: rest) ↔ p c = false := by simp [Stops]

theorem stops_dropWhile (p : Char → Bool) (cs : List Char) : Stops p (cs.dropWhile p) := by
  induction cs with
  | nil => exact stops_nil p
  | cons c cs ih =>
    rw [List.dropWhile_cons]
    split_ifs with h
    · exact ih
    · exact stops_cons.2 (by simpa using h)

theorem takeWhile_append_of_stops {p : Char → Bool} {cs rest : List Char}
    (hcs : ∀ c ∈ cs, p c = true) (hrest : Stops p rest) : (cs ++ rest).takeWhile p = cs := by
  rw [List.takeWhile_append_of_pos hcs]
  cases rest with
  | nil => simp
  | cons c rest => rw [List.takeWhile_cons_of_neg (by simp [stops_cons.1 hrest]), List.append_nil]

theorem dropWhile_append_of_stops {p : Char → Bool} {cs rest : List Char}
    (hcs : ∀ c ∈ cs, p c = true) (hrest : Stops p rest) : (cs ++ rest).dropWhile p = rest := by
  rw [List.dropWhile_append_of_pos hcs]
  cases rest with
  | nil => rfl
  | cons c rest => exact List.dropWhile_cons_of_neg (by simp [stops_cons.1 hrest])

/-- The code points of blanks. -/
def blankCodes : List Nat :=
  List.range' 9 5 ++ List.range' 0x2000 11 ++
    [0x20, 0x85, 0xa0, 0x1680, 0x2028, 0x2029, 0x202f, 0x205f, 0x3000]

theorem mem_blankCodes {c : Char} (h : isBlank c = true) : c.toNat ∈ blankCodes := by
  simp only [isBlank, Bool.or_eq_true, Bool.and_eq_true, decide_eq_true_eq, beq_iff_eq] at h
  simp only [blankCodes, List.mem_append, List.mem_range'_1, List.mem_cons, List.not_mem_nil,
    or_false]
  omega

theorem isLetter_eq_false_of_isBlank {c : Char} (h : isBlank c = true) : isLetter c = false := by
  have hcodes : ∀ n ∈ blankCodes, inRuns n letterRuns = false := by decide +kernel
  exact hcodes _ (mem_blankCodes h)

theorem digitCode {c : Char} (h : isAsciiDigit c = true) : 48 ≤ c.toNat ∧ c.toNat ≤ 57 := by
  simp only [isAsciiDigit, Bool.and_eq_true, decide_eq_true_eq] at h
  exact h

theorem isBlank_eq_false_of_isAsciiDigit {c : Char} (h : isAsciiDigit c = true) :
    isBlank c = false := by
  have hc := digitCode h
  by_contra hb
  have := mem_blankCodes (Bool.not_eq_false _ ▸ hb)
  simp only [blankCodes, List.mem_append, List.mem_range'_1, List.mem_cons, List.not_mem_nil,
    or_false] at this
  omega

theorem isLetter_eq_false_of_isAsciiDigit {c : Char} (h : isAsciiDigit c = true) :
    isLetter c = false := by
  obtain ⟨hlo, hhi⟩ := digitCode h
  have hcodes : ∀ n ∈ List.range' 48 10, inRuns n letterRuns = false := by decide
  exact hcodes _ (List.mem_range'_1.2 ⟨hlo, by omega⟩)

/-! ## Comments and strings -/

theorem blockComment_append (cs : List Char) : ∃ rest, cs = (blockComment cs).1 ++ rest := by
  fun_induction blockComment cs with
  | case1 => exact ⟨[], rfl⟩
  | case2 rest => exact ⟨rest, rfl⟩
  | case3 c rest _ text closed heq ih =>
    obtain ⟨tail, htail⟩ := ih
    rw [heq] at htail
    exact ⟨tail, congrArg (c :: ·) htail⟩

theorem blockComment_ne_nil {cs : List Char} (h : (blockComment cs).2 = true) :
    (blockComment cs).1 ≠ [] := by
  fun_cases blockComment cs with
  | case1 => cases h
  | case2 => exact List.cons_ne_nil _ _
  | case3 => exact List.cons_ne_nil _ _

/-- A comment that is closed does not depend on what follows it. -/
theorem blockComment_closed {cs : List Char} (h : (blockComment cs).2 = true) (rest : List Char) :
    blockComment ((blockComment cs).1 ++ rest) = ((blockComment cs).1, true) := by
  fun_induction blockComment cs with
  | case1 => cases h
  | case2 => rfl
  | case3 c tail hend text closed heq ih =>
    have hne : (blockComment tail).1 ≠ [] := blockComment_ne_nil (by rwa [heq])
    obtain ⟨more, htail⟩ := blockComment_append tail
    rw [heq] at ih htail hne
    have hopen : ∀ after, c = '*' → text ++ rest = '/' :: after → False := by
      intro after hc hafter
      obtain ⟨d, text', rfl⟩ := List.exists_cons_of_ne_nil hne
      obtain rfl : d = '/' := (List.cons.inj hafter).1
      exact hend _ hc htail
    rw [List.cons_append, blockComment.eq_3 _ _ hopen, ih h]

theorem stringBody_append (cs : List Char) : ∃ rest, cs = (stringBody cs).1 ++ rest := by
  fun_induction stringBody cs with
  | case1 => exact ⟨[], rfl⟩
  | case2 rest => exact ⟨'\n' :: rest, rfl⟩
  | case3 rest => exact ⟨rest, rfl⟩
  | case4 rest => exact ⟨'\n' :: rest, rfl⟩
  | case5 c rest _ text closed heq ih =>
    obtain ⟨tail, htail⟩ := ih
    rw [heq] at htail
    exact ⟨tail, congrArg ('\\' :: c :: ·) htail⟩
  | case6 c rest _ _ _ _ text closed heq ih =>
    obtain ⟨tail, htail⟩ := ih
    rw [heq] at htail
    exact ⟨tail, congrArg (c :: ·) htail⟩

/-- A string that is closed does not depend on what follows it. -/
theorem stringBody_closed {cs : List Char} (h : (stringBody cs).2 = true) (rest : List Char) :
    stringBody ((stringBody cs).1 ++ rest) = ((stringBody cs).1, true) := by
  fun_induction stringBody cs with
  | case1 | case2 | case4 => cases h
  | case3 => rfl
  | case5 c tail hc text closed heq ih =>
    rw [heq] at ih
    rw [List.cons_append, List.cons_append, stringBody.eq_5 _ _ hc, ih h]
  | case6 c tail hline hquote _ hescape text closed heq ih =>
    rw [heq] at ih
    have hslash : c ≠ '\\' := by
      rintro rfl
      cases tail with
      | nil =>
        cases heq
        cases h
      | cons d tail => exact hescape d tail rfl rfl
    rw [List.cons_append, stringBody.eq_6 _ _ hline hquote (fun _ hc _ => hslash hc)
      (fun _ _ hc _ => hslash hc), ih h]

/-! ## Lexemes by rules -/

/-- `l` is a lexeme, and nothing of `rest` behind it belongs to it. -/
inductive Found : Lexeme → List Char → Prop
  | newline (rest : List Char) : Found ⟨some .newline, ['\n']⟩ rest
  | blank {c cs rest} (hc : isLineBlank c = true) (hcs : ∀ d ∈ cs, isLineBlank d = true)
      (hrest : Stops isLineBlank rest) : Found ⟨none, c :: cs⟩ rest
  | lineComment {cs rest} (hcs : ∀ d ∈ cs, (d != '\n') = true) (hrest : Stops (· != '\n') rest) :
      Found ⟨some .comment, '/' :: '/' :: cs⟩ rest
  | blockComment {cs} (h : blockComment cs = (cs, true)) (rest : List Char) :
      Found ⟨some .comment, '/' :: '*' :: cs⟩ rest
  | word {c cs rest} (hc : (isLetter c || c == '_') = true) (hcs : ∀ d ∈ cs, isWordChar d = true)
      (hrest : Stops isWordChar rest) : Found ⟨some (wordKind (c :: cs)), c :: cs⟩ rest
  /-- A point after the digits belongs to them if a digit follows it. -/
  | integer {c cs rest} (hc : isAsciiDigit c = true) (hcs : ∀ d ∈ cs, isAsciiDigit d = true)
      (hrest : Stops isAsciiDigit rest)
      (hpoint : ∀ after, rest = '.' :: after → Stops isAsciiDigit after) :
      Found ⟨some .number, c :: cs⟩ rest
  | decimal {c cs d ds rest} (hc : isAsciiDigit c = true) (hcs : ∀ d ∈ cs, isAsciiDigit d = true)
      (hd : isAsciiDigit d = true) (hds : ∀ d ∈ ds, isAsciiDigit d = true)
      (hrest : Stops isAsciiDigit rest) : Found ⟨some .number, c :: (cs ++ '.' :: d :: ds)⟩ rest
  | string {cs} (h : stringBody cs = (cs, true)) (rest : List Char) :
      Found ⟨some .string, '"' :: cs⟩ rest
  | color {c cs rest} (hcs : ∀ d ∈ c :: cs, isColorChar d = true) (hrest : Stops isColorChar rest) :
      Found ⟨some .color, '#' :: c :: cs⟩ rest
  | equals {c kind} (h : withEquals? c = some kind) (rest : List Char) :
      Found ⟨some kind, [c, '=']⟩ rest
  | symbol {c kind rest} (h : punctuation c = kind) (hk : kind ≠ .unknown)
      (hslash : c = '/' → Stops (fun d => d == '/' || d == '*') rest)
      (hequals : withEquals? c ≠ none → Stops (· == '=') rest) : Found ⟨some kind, [c]⟩ rest

/-- Whether a kind is one of words. -/
def Kind.isWord : Kind → Bool
  | .identifier | .keyword _ | .shape _ | .command _ => true
  | _ => false

theorem isWord_wordKind (word : List Char) : (wordKind word).isWord = true := by
  have hreserved : ∀ p ∈ reserved, p.2.isWord = true := by decide
  unfold wordKind
  cases h : reserved.lookup (String.ofList word) with
  | none => rfl
  | some kind =>
    obtain ⟨before, after, hmem, -⟩ := List.lookup_eq_some_iff.1 h
    exact hreserved _ (hmem ▸ List.mem_append_right _ List.mem_cons_self)

/-- Whether a kind is one of signs: those of brackets, points, operators and the like. -/
def Kind.isSign : Kind → Bool
  | .lbrace | .rbrace | .lparen | .rparen | .lbracket | .rbracket | .dot | .comma | .colon
  | .semicolon | .operator _ | .assign => true
  | _ => false

theorem isSign_punctuation {c : Char} (h : punctuation c ≠ .unknown) :
    (punctuation c).isSign = true := by
  revert h
  unfold punctuation
  split <;> simp [Kind.isSign]

theorem isSign_withEquals {c : Char} {kind : Kind} (h : withEquals? c = some kind) :
    kind.isSign = true := by
  unfold withEquals? at h
  split at h <;> cases h <;> rfl

theorem not_isWord {cs : List Char} {kind : Kind} (hk : some (wordKind cs) = some kind)
    (h : kind.isWord = false) : False := by
  rw [← Option.some.inj hk, isWord_wordKind] at h
  cases h

theorem not_isSign {kind kind' : Kind} (hsign : kind.isSign = true) (hk : some kind = some kind')
    (h : kind'.isSign = false) : False := by
  rw [← Option.some.inj hk, hsign] at h
  cases h

theorem Found.text_ne_nil {l : Lexeme} {rest : List Char} (h : Found l rest) : l.text ≠ [] := by
  cases h <;> exact List.cons_ne_nil _ _

/-- A lexeme that is found is neither unknown nor the end of the text. -/
theorem Found.kind_ne {l : Lexeme} {rest : List Char} (h : Found l rest) :
    l.kind ≠ some .unknown ∧ l.kind ≠ some .eof := by
  have word {kind : Kind} (hk : kind.isWord = true) : some kind ≠ some .unknown ∧ some kind ≠ some .eof := by
    cases kind <;> simp_all [Kind.isWord]
  have sign {kind : Kind} (hk : kind.isSign = true) : some kind ≠ some .unknown ∧ some kind ≠ some .eof := by
    cases kind <;> simp_all [Kind.isSign]
  cases h with
  | word => exact word (isWord_wordKind _)
  | equals hkind => exact sign (isSign_withEquals hkind)
  | symbol hkind hk => exact sign (hkind ▸ isSign_punctuation (hkind ▸ hk))
  | _ => simp

theorem Found.string_of_kind {l : Lexeme} {rest : List Char} (h : Found l rest)
    (hk : l.kind = some .string) : ∃ cs, l.text = '"' :: cs ∧ stringBody cs = (cs, true) := by
  cases h with
  | string h => exact ⟨_, rfl, h⟩
  | word => exact (not_isWord hk rfl).elim
  | equals h => exact (not_isSign (isSign_withEquals h) hk rfl).elim
  | symbol h hu => exact (not_isSign (h ▸ isSign_punctuation (h ▸ hu)) hk rfl).elim
  | _ => cases hk

theorem Found.word_of_kind {l : Lexeme} {rest : List Char} (h : Found l rest)
    (hk : l.kind = some .identifier) : ∃ c cs, l.text = c :: cs ∧
      (isLetter c || c == '_') = true ∧ (∀ d ∈ cs, isWordChar d = true) ∧
      wordKind (c :: cs) = .identifier := by
  cases h with
  | word hc hcs => exact ⟨_, _, rfl, hc, hcs, Option.some.inj hk⟩
  | equals h => exact (not_isSign (isSign_withEquals h) hk rfl).elim
  | symbol h hu => exact (not_isSign (h ▸ isSign_punctuation (h ▸ hu)) hk rfl).elim
  | _ => cases hk

/-- A number stays one before other text that does not go on with it. -/
theorem Found.number_before {l : Lexeme} {rest : List Char} (h : Found l rest)
    (hk : l.kind = some .number) {more : List Char} (hmore : Stops isAsciiDigit more)
    (hpoint : ∀ after, more = '.' :: after → Stops isAsciiDigit after) : Found l more := by
  cases h with
  | integer hc hcs => exact .integer hc hcs hmore hpoint
  | decimal hc hcs hd hds => exact .decimal hc hcs hd hds hmore
  | word => exact (not_isWord hk rfl).elim
  | equals h => exact (not_isSign (isSign_withEquals h) hk rfl).elim
  | symbol h hu => exact (not_isSign (h ▸ isSign_punctuation (h ▸ hu)) hk rfl).elim
  | _ => cases hk

theorem Found.color_of_kind {l : Lexeme} {rest : List Char} (h : Found l rest)
    (hk : l.kind = some .color) :
    ∃ c cs, l.text = '#' :: c :: cs ∧ ∀ d ∈ c :: cs, isColorChar d = true := by
  cases h with
  | color hcs => exact ⟨_, _, rfl, hcs⟩
  | word => exact (not_isWord hk rfl).elim
  | equals h => exact (not_isSign (isSign_withEquals h) hk rfl).elim
  | symbol h hu => exact (not_isSign (h ▸ isSign_punctuation (h ▸ hu)) hk rfl).elim
  | _ => cases hk

/-- A color stays one before other text that does not go on with it. -/
theorem Found.color_before {l : Lexeme} {rest : List Char} (h : Found l rest)
    (hk : l.kind = some .color) {more : List Char} (hmore : Stops isColorChar more) :
    Found l more := by
  obtain ⟨c, cs, htext, hcs⟩ := h.color_of_kind hk
  obtain ⟨kind, text⟩ := l
  obtain rfl : text = '#' :: c :: cs := htext
  obtain rfl : kind = some .color := hk
  exact .color hcs hmore

/-- The characters that are tokens by themselves or with an equals sign. -/
def symbols : List Char :=
  ['{', '}', '(', ')', '[', ']', '.', ',', ':', ';', '+', '-', '*', '/', '%', '=', '<', '>', '!']

theorem mem_symbols_of_punctuation {c : Char} (h : punctuation c ≠ .unknown) : c ∈ symbols := by
  revert h
  unfold punctuation
  split <;> simp [symbols]

theorem mem_symbols_of_withEquals {c : Char} (h : withEquals? c ≠ none) : c ∈ symbols := by
  revert h
  unfold withEquals?
  split <;> simp [symbols]

theorem class_of_mem_symbols {c : Char} (h : c ∈ symbols) : c ≠ '\n' ∧ isBlank c = false ∧
    (isLetter c || c == '_') = false ∧ isAsciiDigit c = false ∧ c ≠ '"' ∧ c ≠ '#' := by
  have hall : symbols.all (fun c => c != '\n' && !isBlank c && !(isLetter c || c == '_') &&
      !isAsciiDigit c && c != '"' && c != '#') = true := by decide
  have hc := List.all_eq_true.1 hall c h
  simp only [Bool.and_eq_true, bne_iff_ne, Bool.not_eq_true'] at hc
  obtain ⟨⟨⟨⟨⟨hline, hblank⟩, hletter⟩, hdigit⟩, hquote⟩, hhash⟩ := hc
  exact ⟨hline, hblank, hletter, hdigit, hquote, hhash⟩

/-! ## The first character of a lexeme -/

section First

variable {kind : Option Kind} {c : Char} {cs rest : List Char}

theorem Found.isLineBlank_first (h : Found ⟨kind, c :: cs⟩ rest) (hk : kind ≠ none) :
    isLineBlank c = false := by
  have letter (hc : (isLetter c || c == '_') = true) : isLineBlank c = false := by
    by_contra hb
    rw [Bool.not_eq_false, isLineBlank, Bool.and_eq_true] at hb
    rw [isLetter_eq_false_of_isBlank hb.2, Bool.false_or, beq_iff_eq] at hc
    rw [hc] at hb
    exact absurd hb.2 (by decide)
  have sign (hc : c ∈ symbols) : isLineBlank c = false := by
    rw [isLineBlank, (class_of_mem_symbols hc).2.1, Bool.and_false]
  cases h with
  | blank => exact absurd rfl hk
  | word hc => exact letter hc
  | integer hc | decimal hc => rw [isLineBlank, isBlank_eq_false_of_isAsciiDigit hc, Bool.and_false]
  | equals hc => exact sign (mem_symbols_of_withEquals (by simp [hc]))
  | symbol hc hu => exact sign (mem_symbols_of_punctuation (hc ▸ hu))
  | _ => decide

/-- Only a line end starts with a line feed. -/
theorem Found.first_ne_lineFeed (h : Found ⟨kind, c :: cs⟩ rest) (hk : kind ≠ some .newline) :
    c ≠ '\n' := by
  have first {p : Char → Bool} (hc : p c = true) (hp : p '\n' = false) : c ≠ '\n' := by
    rintro rfl
    rw [hp] at hc
    cases hc
  have sign (hc : c ∈ symbols) : c ≠ '\n' := (class_of_mem_symbols hc).1
  cases h with
  | newline => exact absurd rfl hk
  | blank hc | integer hc | decimal hc => exact first hc (by decide)
  | word hc => exact first (p := fun c => isLetter c || c == '_') hc (by decide)
  | equals hc => exact sign (mem_symbols_of_withEquals (by simp [hc]))
  | symbol hc hu => exact sign (mem_symbols_of_punctuation (hc ▸ hu))
  | _ => decide

/-- Only a point starts with a point. -/
theorem Found.eq_dot_of_first (h : Found ⟨kind, '.' :: cs⟩ rest) : kind = some .dot ∧ cs = [] := by
  cases h with
  | blank hc | word hc | integer hc | decimal hc => exact absurd hc (by decide)
  | equals hc => cases hc
  | symbol hc => exact ⟨congrArg some hc.symm, rfl⟩

/-- Only a number starts with a digit. -/
theorem Found.eq_number_of_first (h : Found ⟨kind, c :: cs⟩ rest) (hc : isAsciiDigit c = true) :
    kind = some .number := by
  have sign (hs : c ∈ symbols) : isAsciiDigit c = false := (class_of_mem_symbols hs).2.2.2.1
  have clash (hs : isAsciiDigit c = false) : kind = some .number := by
    rw [hs] at hc
    cases hc
  cases h with
  | integer | decimal => rfl
  | blank hb =>
    rw [isLineBlank, isBlank_eq_false_of_isAsciiDigit hc, Bool.and_false] at hb
    cases hb
  | word hl =>
    rw [isLetter_eq_false_of_isAsciiDigit hc, Bool.false_or, beq_iff_eq] at hl
    exact absurd hc (by rw [hl]; decide)
  | equals he => exact clash (sign (mem_symbols_of_withEquals (by simp [he])))
  | symbol he hk => exact clash (sign (mem_symbols_of_punctuation (he ▸ hk)))
  | _ => exact absurd hc (by decide)

/-- Only a comment starts with two slashes, and it goes on to the end of the line. -/
theorem Found.lineComment_of_first {l : Lexeme} (h : Found l rest) (hl : l.text = '/' :: '/' :: cs) :
    (∀ more, Stops (· != '\n') more → Found l more) ∧ Stops (· != '\n') rest := by
  have digit {d : Char} {ds : List Char} (hd : isAsciiDigit d = true)
      (hds : d :: ds = '/' :: '/' :: cs) : False := by
    rw [(List.cons.inj hds).1] at hd
    exact absurd hd (by decide)
  cases h with
  | lineComment hcs hrest => exact ⟨fun _ hmore => .lineComment hcs hmore, hrest⟩
  | blank hc | word hc => cases hl; exact absurd hc (by decide)
  | integer hc | decimal hc => exact (digit hc hl).elim
  | _ => cases hl

end First

/-! ## The scanner by the first character -/

theorem scan_of_isLineBlank {c : Char} (h : isLineBlank c = true) (cs : List Char) :
    scan c cs = ⟨none, c :: cs.takeWhile isLineBlank⟩ := by
  rw [isLineBlank, Bool.and_eq_true, bne_iff_ne] at h
  rw [scan, if_neg h.1, if_pos h.2]
  rfl

theorem scan_slash (cs : List Char) : scan '/' cs = slash cs := by
  rw [scan, if_neg (by decide), if_neg (by decide), if_pos rfl]

theorem scan_of_letter {c : Char} (h : (isLetter c || c == '_') = true) (cs : List Char) :
    scan c cs = ⟨some (wordKind (c :: cs.takeWhile isWordChar)), c :: cs.takeWhile isWordChar⟩ := by
  have hblank : isBlank c = false := by
    by_contra hb
    rw [Bool.not_eq_false] at hb
    rw [isLetter_eq_false_of_isBlank hb, Bool.false_or, beq_iff_eq] at h
    rw [h] at hb
    exact absurd hb (by decide)
  have hline : c ≠ '\n' := by
    rintro rfl
    exact absurd hblank (by decide)
  have hslash : c ≠ '/' := by
    rintro rfl
    exact absurd h (by decide)
  rw [scan, if_neg hline, if_neg (by simp [hblank]), if_neg hslash, if_pos h]

theorem scan_of_digit {c : Char} (h : isAsciiDigit c = true) (cs : List Char) :
    scan c cs = ⟨some .number, c :: numberTail cs⟩ := by
  have hcode := digitCode h
  have hne (d : Char) (hd : ¬ (48 ≤ d.toNat ∧ d.toNat ≤ 57)) : c ≠ d := by
    rintro rfl
    exact hd hcode
  rw [scan, if_neg (hne _ (by decide)), if_neg (by simp [isBlank_eq_false_of_isAsciiDigit h]),
    if_neg (hne _ (by decide)), if_neg, if_pos h]
  rw [isLetter_eq_false_of_isAsciiDigit h]
  simpa using hne '_' (by decide)

theorem scan_quote (cs : List Char) :
    scan '"' cs = ⟨some (if (stringBody cs).2 then .string else .unknown), '"' :: (stringBody cs).1⟩ := by
  rw [scan, if_neg (by decide), if_neg (by decide), if_neg (by decide), if_neg (by decide),
    if_neg (by decide), if_pos rfl]

theorem scan_hash (cs : List Char) :
    scan '#' cs = match cs.takeWhile isColorChar with
      | [] => ⟨some .unknown, ['#']⟩
      | name => ⟨some .color, '#' :: name⟩ := by
  rw [scan, if_neg (by decide), if_neg (by decide), if_neg (by decide), if_neg (by decide),
    if_neg (by decide), if_neg (by decide), if_pos rfl]
  rfl

theorem scan_of_symbol {c : Char} (h : c ∈ symbols) (hslash : c ≠ '/') (cs : List Char) :
    scan c cs = symbol c cs := by
  obtain ⟨hline, hblank, hletter, hdigit, hquote, hhash⟩ := class_of_mem_symbols h
  rw [scan, if_neg hline, if_neg (by simp [hblank]), if_neg hslash, if_neg (by simp [hletter]),
    if_neg (by simp [hdigit]), if_neg hquote, if_neg hhash]

/-! ## The scanner finds the lexemes -/

theorem numberTail_integer {cs rest : List Char} (hcs : ∀ d ∈ cs, isAsciiDigit d = true)
    (hrest : Stops isAsciiDigit rest)
    (hpoint : ∀ after, rest = '.' :: after → Stops isAsciiDigit after) :
    numberTail (cs ++ rest) = cs := by
  rw [numberTail, takeWhile_append_of_stops hcs hrest, dropWhile_append_of_stops hcs hrest]
  split
  · next d after =>
    rw [if_neg (by simp [stops_cons.1 (hpoint _ rfl)])]
  · rfl

theorem numberTail_decimal {cs ds rest : List Char} {d : Char}
    (hcs : ∀ d ∈ cs, isAsciiDigit d = true) (hd : isAsciiDigit d = true)
    (hds : ∀ d ∈ ds, isAsciiDigit d = true) (hrest : Stops isAsciiDigit rest) :
    numberTail (cs ++ '.' :: d :: ds ++ rest) = cs ++ '.' :: d :: ds := by
  have hpoint : Stops isAsciiDigit ('.' :: d :: (ds ++ rest)) := stops_cons.2 (by decide)
  rw [numberTail, List.append_assoc, List.cons_append, List.cons_append,
    takeWhile_append_of_stops hcs hpoint, dropWhile_append_of_stops hcs hpoint]
  show (if isAsciiDigit d = true then _ else _) = _
  rw [if_pos hd, takeWhile_append_of_stops hds hrest]

theorem symbol_of_stops {c : Char} {rest : List Char}
    (h : withEquals? c ≠ none → Stops (· == '=') rest) :
    symbol c rest = ⟨some (punctuation c), [c]⟩ := by
  unfold symbol
  split
  · next after =>
    cases hc : withEquals? c with
    | none => rfl
    | some kind => exact absurd (stops_cons.1 (h (by simp [hc]))) (by decide)
  · rfl

theorem slash_of_stops {rest : List Char} (h : Stops (fun d => d == '/' || d == '*') rest) :
    slash rest = symbol '/' rest := by
  unfold slash
  split
  · exact absurd (stops_cons.1 h) (by decide)
  · exact absurd (stops_cons.1 h) (by decide)
  · rfl

/-- The scanner finds what the rules give. -/
theorem scan_of_found {l : Lexeme} {rest : List Char} (h : Found l rest) :
    ∃ c cs, l.text = c :: cs ∧ scan c (cs ++ rest) = l := by
  cases h with
  | newline => exact ⟨_, _, rfl, rfl⟩
  | blank hc hcs hrest =>
    exact ⟨_, _, rfl, by rw [scan_of_isLineBlank hc, takeWhile_append_of_stops hcs hrest]⟩
  | lineComment hcs hrest =>
    refine ⟨_, _, rfl, ?_⟩
    rw [scan_slash, List.cons_append, slash, takeWhile_append_of_stops hcs hrest]
  | blockComment hbody =>
    refine ⟨_, _, rfl, ?_⟩
    have hclosed := blockComment_closed (by rw [hbody]) rest
    rw [hbody] at hclosed
    rw [scan_slash, List.cons_append, slash, hclosed]
    rfl
  | word hc hcs hrest =>
    exact ⟨_, _, rfl, by rw [scan_of_letter hc, takeWhile_append_of_stops hcs hrest]⟩
  | integer hc hcs hrest hpoint =>
    exact ⟨_, _, rfl, by rw [scan_of_digit hc, numberTail_integer hcs hrest hpoint]⟩
  | decimal hc hcs hd hds hrest =>
    exact ⟨_, _, rfl, by rw [scan_of_digit hc, numberTail_decimal hcs hd hds hrest]⟩
  | string hbody =>
    refine ⟨_, _, rfl, ?_⟩
    have hclosed := stringBody_closed (by rw [hbody]) rest
    rw [hbody] at hclosed
    rw [scan_quote, hclosed]
    rfl
  | color hcs hrest =>
    refine ⟨_, _, rfl, ?_⟩
    rw [scan_hash, takeWhile_append_of_stops hcs hrest]
  | equals hkind =>
    refine ⟨_, _, rfl, ?_⟩
    rw [scan_of_symbol (mem_symbols_of_withEquals (by simp [hkind])) (by rintro rfl; cases hkind)]
    simp only [symbol, List.cons_append, hkind]
  | @symbol c kind _ hc hk hslash hequals =>
    refine ⟨_, _, rfl, ?_⟩
    have hsymbol := symbol_of_stops hequals
    rw [List.nil_append]
    by_cases hs : c = '/'
    · subst hs
      rw [scan_slash, slash_of_stops (hslash rfl), hsymbol, hc]
    · rw [scan_of_symbol (mem_symbols_of_punctuation (hc ▸ hk)) hs, hsymbol, hc]

/-- `l` starts with the character `c` and goes on in `cs`, and it is found there unless it is
unknown. -/
def FoundAt (c : Char) (cs : List Char) (l : Lexeme) : Prop :=
  ∃ body rest, l.text = c :: body ∧ cs = body ++ rest ∧ (l.kind ≠ some .unknown → Found l rest)

theorem foundAt_takeWhile {p : Char → Bool} {kind : Option Kind} (c : Char) (cs : List Char)
    (h : ∀ cs rest, (∀ d ∈ cs, p d = true) → Stops p rest → Found ⟨kind, c :: cs⟩ rest) :
    FoundAt c cs ⟨kind, c :: cs.takeWhile p⟩ :=
  ⟨_, cs.dropWhile p, rfl, by simp, fun _ =>
    h _ _ (fun _ hd => List.mem_takeWhile_imp hd) (stops_dropWhile p cs)⟩

theorem foundAt_symbol {c : Char} {cs : List Char}
    (h : c = '/' → Stops (fun d => d == '/' || d == '*') cs) : FoundAt c cs (symbol c cs) := by
  have single (hequals : withEquals? c ≠ none → Stops (· == '=') cs) :
      FoundAt c cs ⟨some (punctuation c), [c]⟩ :=
    ⟨[], cs, rfl, rfl, fun hk => .symbol rfl (fun hu => hk (congrArg some hu)) h hequals⟩
  unfold symbol
  split
  · next after =>
    cases hc : withEquals? c with
    | some kind => exact ⟨['='], after, rfl, rfl, fun _ => .equals hc after⟩
    | none => exact single fun hne => absurd hc hne
  · next hcs =>
    refine single fun _ => ?_
    cases cs with
    | nil => exact stops_nil _
    | cons d cs => exact stops_cons.2 (by simpa using fun hd => hcs cs (by rw [hd]))

theorem foundAt_slash (cs : List Char) : FoundAt '/' cs (slash cs) := by
  unfold slash
  split
  · next cs =>
    refine ⟨_, cs.dropWhile (· != '\n'), rfl, by simp, fun _ => ?_⟩
    exact .lineComment (fun _ hd => List.mem_takeWhile_imp (p := (· != '\n')) hd)
      (stops_dropWhile _ _)
  · next cs =>
    obtain ⟨rest, hrest⟩ := blockComment_append cs
    refine ⟨_, rest, rfl, congrArg ('*' :: ·) hrest, fun hk => ?_⟩
    rcases hbody : blockComment cs with ⟨text, _ | _⟩ <;> rw [hbody] at hk
    · exact absurd rfl hk
    · have hclosed := blockComment_closed (by rw [hbody]) []
      rw [hbody, List.append_nil] at hclosed
      exact .blockComment hclosed rest
  · next hline hblock =>
    refine foundAt_symbol fun _ => ?_
    cases cs with
    | nil => exact stops_nil _
    | cons d cs =>
      refine stops_cons.2 ?_
      have h₁ : d ≠ '/' := fun hd => hline cs (by rw [hd])
      have h₂ : d ≠ '*' := fun hd => hblock cs (by rw [hd])
      simp [h₁, h₂]

theorem foundAt_number {c : Char} (hc : isAsciiDigit c = true) (cs : List Char) :
    FoundAt c cs ⟨some .number, c :: numberTail cs⟩ := by
  have hwhole : ∀ d ∈ cs.takeWhile isAsciiDigit, isAsciiDigit d = true :=
    fun _ hd => List.mem_takeWhile_imp hd
  have hstop := stops_dropWhile isAsciiDigit cs
  have hcs := (List.takeWhile_append_dropWhile (p := isAsciiDigit) (l := cs)).symm
  have integer (hpoint : ∀ after, cs.dropWhile isAsciiDigit = '.' :: after →
      Stops isAsciiDigit after) : FoundAt c cs ⟨some .number, c :: cs.takeWhile isAsciiDigit⟩ :=
    ⟨_, _, rfl, hcs, fun _ => .integer hc hwhole hstop hpoint⟩
  unfold numberTail
  dsimp only
  split
  · next d rest hrest =>
    rw [hrest] at hcs
    split_ifs with hd
    · refine ⟨_, rest.dropWhile isAsciiDigit, rfl, ?_, fun _ => ?_⟩
      · simpa using hcs
      · exact .decimal hc hwhole hd (fun _ hd => List.mem_takeWhile_imp hd) (stops_dropWhile _ _)
    · refine integer fun after hafter => ?_
      rw [hrest] at hafter
      obtain ⟨-, rfl⟩ := List.cons.inj hafter
      exact stops_cons.2 (by simpa using hd)
  · next hrest =>
    refine integer fun after hafter => ?_
    cases after with
    | nil => exact stops_nil _
    | cons d after => exact absurd hafter (hrest d after)

/-- What the scanner finds is given by the rules, unless it is unknown. -/
theorem found_scan (c : Char) (cs : List Char) : FoundAt c cs (scan c cs) := by
  unfold scan
  split_ifs with hline hblank hslash hletter hdigit hquote hhash
  · subst hline
    exact ⟨[], cs, rfl, rfl, fun _ => .newline cs⟩
  · have hc : isLineBlank c = true := by simp [isLineBlank, hline, hblank]
    exact foundAt_takeWhile c cs fun _ _ hcs hrest => .blank hc hcs hrest
  · subst hslash
    exact foundAt_slash cs
  · refine ⟨_, cs.dropWhile isWordChar, rfl, by simp, fun _ => ?_⟩
    exact .word hletter (fun _ hd => List.mem_takeWhile_imp hd) (stops_dropWhile _ _)
  · exact foundAt_number hdigit cs
  · subst hquote
    obtain ⟨rest, hrest⟩ := stringBody_append cs
    refine ⟨_, rest, rfl, hrest, fun hk => ?_⟩
    rcases hbody : stringBody cs with ⟨text, _ | _⟩ <;> rw [hbody] at hk
    · exact absurd rfl hk
    · have hclosed := stringBody_closed (by rw [hbody]) []
      rw [hbody, List.append_nil] at hclosed
      exact .string hclosed rest
  · subst hhash
    have hcs := (List.takeWhile_append_dropWhile (p := isColorChar) (l := cs)).symm
    have hall : ∀ d ∈ cs.takeWhile isColorChar, isColorChar d = true :=
      fun _ hd => List.mem_takeWhile_imp hd
    have hstop := stops_dropWhile isColorChar cs
    change FoundAt _ _ (match cs.takeWhile isColorChar with | [] => _ | name => _)
    cases hname : cs.takeWhile isColorChar with
    | nil => exact ⟨[], cs, rfl, rfl, fun hk => absurd rfl hk⟩
    | cons d name =>
      rw [hname] at hcs hall
      exact ⟨_, _, rfl, hcs, fun _ => .color hall hstop⟩
  · exact foundAt_symbol fun h => absurd h hslash

/-! ## The lexemes of a text -/

/-- The text that lexemes have together. -/
def textOf (ls : List Lexeme) : List Char := ls.flatMap Lexeme.text

@[simp] theorem textOf_nil : textOf [] = [] := rfl

@[simp] theorem textOf_cons (l : Lexeme) (ls : List Lexeme) : textOf (l :: ls) = l.text ++ textOf ls :=
  rfl

@[simp] theorem textOf_append (ls ls' : List Lexeme) :
    textOf (ls ++ ls') = textOf ls ++ textOf ls' :=
  List.flatMap_append

/-- Each lexeme is found before the text of those behind it, with the text `after` behind all. -/
inductive Readable (after : List Char) : List Lexeme → Prop
  | nil : Readable after []
  | cons {l : Lexeme} {ls : List Lexeme} (h : Found l (textOf ls ++ after))
      (hls : Readable after ls) : Readable after (l :: ls)

theorem readable_cons {after : List Char} {l : Lexeme} {ls : List Lexeme} :
    Readable after (l :: ls) ↔ Found l (textOf ls ++ after) ∧ Readable after ls :=
  ⟨fun | .cons h hls => ⟨h, hls⟩, fun ⟨h, hls⟩ => .cons h hls⟩

theorem readable_append {after : List Char} {ls ls' : List Lexeme} :
    Readable after (ls ++ ls') ↔ Readable (textOf ls' ++ after) ls ∧ Readable after ls' := by
  induction ls with
  | nil => exact ⟨fun h => ⟨.nil, h⟩, fun h => h.2⟩
  | cons l ls ih =>
    rw [List.cons_append, readable_cons, readable_cons, ih, textOf_append, List.append_assoc,
      and_assoc]

theorem Readable.exists_found {after : List Char} {ls : List Lexeme} (h : Readable after ls)
    {l : Lexeme} (hl : l ∈ ls) : ∃ rest, Found l rest := by
  induction h with
  | nil => cases hl
  | cons hfound _ ih =>
    rcases List.mem_cons.1 hl with rfl | hl
    · exact ⟨_, hfound⟩
    · exact ih hl

theorem lexemesFrom_append (cs rest : List Char) :
    lexemesFrom cs.length (cs ++ rest) = lexemes rest := by
  induction cs with
  | nil => rfl
  | cons c cs ih => exact ih

/-- The lexemes of a text are its first lexeme and the lexemes of what follows. -/
theorem lexemes_of_scan {c : Char} {cs rest : List Char} {l : Lexeme} (hl : scan c (cs ++ rest) = l)
    (htext : l.text = c :: cs) : lexemes (c :: (cs ++ rest)) = l :: lexemes rest := by
  rw [lexemes, lexemesFrom, hl, htext]
  exact congrArg (l :: ·) (lexemesFrom_append cs rest)

/-- Readable lexemes are the lexemes of their text. -/
theorem lexemes_textOf {ls : List Lexeme} (h : Readable [] ls) : lexemes (textOf ls) = ls := by
  induction h with
  | nil => rfl
  | @cons l ls hfound _ ih =>
    obtain ⟨c, cs, htext, hscan⟩ := scan_of_found hfound
    rw [List.append_nil] at hscan
    rw [textOf_cons, htext, List.cons_append, lexemes_of_scan hscan htext, ih]

/-- A text is cut into lexemes that have the whole text together. -/
theorem textOf_lexemes (cs : List Char) : textOf (lexemes cs) = cs := by
  induction hn : cs.length using Nat.strong_induction_on generalizing cs with
  | _ n ih =>
    cases cs with
    | nil => rfl
    | cons c cs =>
      obtain ⟨body, rest, hbody, rfl, -⟩ := found_scan c cs
      have hrest := ih rest.length (by simp at hn; omega) rest rfl
      rw [lexemes_of_scan rfl hbody, textOf_cons, hrest, hbody]
      rfl

/-- The lexemes of a text can be read unless one is unknown. -/
theorem readable_lexemes {cs : List Char} (h : ∀ l ∈ lexemes cs, l.kind ≠ some .unknown) :
    Readable [] (lexemes cs) := by
  induction hn : cs.length using Nat.strong_induction_on generalizing cs with
  | _ n ih =>
    cases cs with
    | nil => exact .nil
    | cons c cs =>
      obtain ⟨body, rest, hbody, rfl, hfound⟩ := found_scan c cs
      rw [lexemes_of_scan rfl hbody] at h ⊢
      refine .cons ?_ (ih rest.length (by simp at hn; omega)
        (fun l hl => h l (List.mem_cons_of_mem _ hl)) rfl)
      rw [textOf_lexemes, List.append_nil]
      exact hfound (h _ List.mem_cons_self)

/-- Every lexeme of a text is found unless it is unknown. -/
theorem exists_found {cs : List Char} {l : Lexeme} (h : l ∈ lexemes cs)
    (hk : l.kind ≠ some .unknown) : ∃ rest, Found l rest := by
  induction hn : cs.length using Nat.strong_induction_on generalizing cs with
  | _ n ih =>
    cases cs with
    | nil => cases h
    | cons c cs =>
      obtain ⟨body, rest, hbody, rfl, hfound⟩ := found_scan c cs
      rw [lexemes_of_scan rfl hbody] at h
      rcases List.mem_cons.1 h with rfl | h
      · exact ⟨rest, hfound hk⟩
      · exact ih rest.length (by simp at hn; omega) h rfl

/-- No lexeme is an end of the text. -/
theorem kind_ne_eof {cs : List Char} {l : Lexeme} (h : l ∈ lexemes cs) : l.kind ≠ some .eof := by
  intro heof
  obtain ⟨rest, hfound⟩ := exists_found h (by simp [heof])
  exact hfound.kind_ne.2 heof

end Easel.Token
