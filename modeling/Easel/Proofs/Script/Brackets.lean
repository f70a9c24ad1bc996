import Easel.Proofs.Script.Unbroken

/-!
# Brackets and literals

A reader goes through a text character by character and knows whether it is in code, in a string
literal or in a comment, and which brackets are still open (`Reader.step`).  A text is well formed
if every bracket is closed by its own kind, every literal is closed on its line and no other quotes
occur (`WellFormed`).  Which characters end a line is left open (`LineEnds`).

Characters without the end of a line lead from one reader to another (`Passes`), whatever brackets
are open further out (`Passes.inside`).  A piece of text reads from some open brackets to others
unless a line ends in it other than by a line feed: then the reader fails (`Reads`).  Pieces may be
joined (`Reads.append`), and so the rows of a script read as its items do (`Spells.rows`).
-/

namespace Easel.Script

/-! ## Readers -/

/-- The characters that end a line somewhere. -/
def isLineTerminator (c : Char) : Bool := ['\n', '\r', '\u2028', '\u2029'].contains c

/-- The characters that end a line: line feeds, and others or not. -/
structure LineEnds where
  isEnd : Char → Bool
  lineFeed : isEnd '\n' = true
  known : ∀ c, isEnd c = true → isLineTerminator c = true

namespace LineEnds

/-- Only line feeds end lines. -/
def lineFeeds : LineEnds where
  isEnd c := c == '\n'
  lineFeed := rfl
  known _ hc := beq_iff_eq.1 hc ▸ rfl

/-- All characters that end a line somewhere do. -/
def all : LineEnds where
  isEnd := isLineTerminator
  lineFeed := rfl
  known _ hc := hc

end LineEnds

/-- Where in a text a reader is.  A slash may start a comment, and what follows a backslash is part
of the string. -/
inductive Mode where
  | code | slash | string | escape | comment
  deriving DecidableEq

/-- A reader: where it is, and the brackets that close the open ones, the innermost first. -/
structure Reader where
  mode : Mode := .code
  closers : List Char := []
  deriving DecidableEq

/-- The bracket that closes one. -/
def closer? (c : Char) : Option Char :=
  if c = '(' then some ')' else if c = '[' then some ']' else if c = '{' then some '}'
  else none

def isCloser (c : Char) : Bool := [')', ']', '}'].contains c

namespace Reader

/-- Read a character of code. Only double quotes may stand around strings, and no backslash may
stand outside of them. -/
def readCode (closers : List Char) (c : Char) : Option Reader :=
  if c = '"' then some ⟨.string, closers⟩
  else if c = '/' then some ⟨.slash, closers⟩
  else if c = '\x27' ∨ c = '\x60' ∨ c = '\\' then none
  else match closer? c with
    | some d => some ⟨.code, d :: closers⟩
    | none =>
      if isCloser c then
        if closers.head? = some c then some ⟨.code, closers.tail⟩ else none
      else some ⟨.code, closers⟩

/-- Read a character, if it may stand where the reader is. -/
def step (isEnd : Char → Bool) (r : Reader) (c : Char) : Option Reader :=
  match r.mode with
  | .code => readCode r.closers c
  | .slash =>
    if c = '/' then some ⟨.comment, r.closers⟩
    else if c = '*' then none
    else readCode r.closers c
  | .string =>
    if isEnd c then none
    else if c = '"' then some ⟨.code, r.closers⟩
    else if c = '\\' then some ⟨.escape, r.closers⟩
    else some r
  | .escape => if isEnd c then none else some ⟨.string, r.closers⟩
  | .comment => if isEnd c then some ⟨.code, r.closers⟩ else some r

end Reader

/-- Every literal is closed on its line, and every bracket by its own kind. -/
def WellFormed (isEnd : Char → Bool) (text : List Char) : Prop :=
  text.foldlM (Reader.step isEnd) {} = some {}

instance (isEnd : Char → Bool) (text : List Char) : Decidable (WellFormed isEnd text) :=
  inferInstanceAs (Decidable (_ = _))

variable {ends : LineEnds} {Q : Char → Prop} {a b o o' cs ds : List Char} {c : Char} {r r' : Reader}

theorem LineEnds.isEnd_of_bare (ends : LineEnds) (h : isLineTerminator c = false) :
    ends.isEnd c = false := by
  rw [Bool.eq_false_iff]
  intro hend
  have hknown := ends.known c hend
  rw [h] at hknown
  cases hknown

/-! ## Steps -/

/-- The characters that matter to readers: quotes, slashes, brackets and ends of lines. -/
def specials : List Char :=
  ['"', '/', '\\', '\x27', '\x60', '(', '[', '{', ')', ']', '}', '\n', '\r', '\u2028', '\u2029']

/-- The character does not matter to a reader. -/
def isPlain (c : Char) : Bool := !specials.contains c

theorem isPlain_of_class {p : Char → Bool} (h : specials.any p = false) (hc : p c = true) :
    isPlain c = true := by
  rw [isPlain, Bool.not_eq_true', List.contains_eq_mem, decide_eq_false_iff_not]
  exact fun hmem => List.any_eq_false.1 h c hmem hc

theorem isPlain_iff : isPlain c = true ↔ ∀ d ∈ specials, c ≠ d := by
  rw [isPlain, Bool.not_eq_true', List.contains_eq_mem, decide_eq_false_iff_not]
  exact ⟨fun h d hd hcd => h (hcd ▸ hd), fun h hc => h c hc rfl⟩

theorem readCode_plain (hc : isPlain c = true) (a : List Char) :
    Reader.readCode a c = some ⟨.code, a⟩ := by
  have hne := isPlain_iff.1 hc
  simp only [specials, List.forall_mem_cons, List.not_mem_nil, false_implies, implies_true,
    and_true] at hne
  simp [Reader.readCode, closer?, isCloser, hne]

theorem bare_of_isPlain (hc : isPlain c = true) : isLineTerminator c = false := by
  have hne := isPlain_iff.1 hc
  simp only [specials, List.forall_mem_cons, List.not_mem_nil, false_implies, implies_true,
    and_true] at hne
  simp [isLineTerminator, hne]

section Step

variable (isEnd : Char → Bool) (a : List Char) (c : Char)

theorem step_code : Reader.step isEnd ⟨.code, a⟩ c = Reader.readCode a c := rfl

theorem step_slash : Reader.step isEnd ⟨.slash, a⟩ c =
    if c = '/' then some ⟨.comment, a⟩ else if c = '*' then none else Reader.readCode a c := rfl

theorem step_string : Reader.step isEnd ⟨.string, a⟩ c =
    if isEnd c then none else if c = '"' then some ⟨.code, a⟩
    else if c = '\\' then some ⟨.escape, a⟩ else some ⟨.string, a⟩ := rfl

theorem step_escape : Reader.step isEnd ⟨.escape, a⟩ c =
    if isEnd c then none else some ⟨.string, a⟩ := rfl

theorem step_comment : Reader.step isEnd ⟨.comment, a⟩ c =
    if isEnd c then some ⟨.code, a⟩ else some ⟨.comment, a⟩ := rfl

end Step

/-- After a line feed the reader is in code. -/
theorem mode_of_lineFeed (h : r.step ends.isEnd '\n' = some r') : r'.mode = .code := by
  obtain ⟨mode, closers⟩ := r
  have hend := ends.lineFeed
  cases mode with
  | code | slash =>
    obtain rfl := Option.some.inj h
    rfl
  | string =>
    rw [step_string, if_pos hend] at h
    cases h
  | escape =>
    rw [step_escape, if_pos hend] at h
    cases h
  | comment =>
    rw [step_comment, if_pos hend] at h
    obtain rfl := Option.some.inj h
    rfl

/-- Brackets further out do not matter to a step that gets through. -/
theorem readCode_append {mode : Mode} (h : Reader.readCode o c = some ⟨mode, o'⟩) (a : List Char) :
    Reader.readCode (o ++ a) c = some ⟨mode, o' ++ a⟩ := by
  unfold Reader.readCode at h ⊢
  cases hcloser : closer? c with
  | some d =>
    simp only [hcloser] at h ⊢
    split_ifs at h ⊢ <;> cases h <;> rfl
  | none =>
    cases o with
    | nil =>
      simp only [hcloser, List.head?_nil, reduceCtorEq, if_false] at h ⊢
      split_ifs at h ⊢ <;> cases h <;> rfl
    | cons d o =>
      simp only [hcloser, List.cons_append, List.head?_cons, List.tail_cons,
        Option.some.injEq] at h ⊢
      by_cases hd : d = c
      · simp only [hd, if_true] at h ⊢
        split_ifs at h ⊢ <;> cases h <;> rfl
      · simp only [hd, if_false] at h ⊢
        split_ifs at h ⊢ <;> cases h <;> rfl

theorem step_append {isEnd : Char → Bool} {mode mode' : Mode}
    (h : Reader.step isEnd ⟨mode, o⟩ c = some ⟨mode', o'⟩) (a : List Char) :
    Reader.step isEnd ⟨mode, o ++ a⟩ c = some ⟨mode', o' ++ a⟩ := by
  cases mode with
  | code => exact readCode_append h a
  | slash =>
    rw [step_slash] at h ⊢
    split_ifs at h ⊢
    · cases h
      rfl
    · exact readCode_append h a
  | string =>
    rw [step_string] at h ⊢
    split_ifs at h ⊢ <;> cases h <;> rfl
  | escape =>
    rw [step_escape] at h ⊢
    split_ifs at h ⊢
    cases h
    rfl
  | comment =>
    rw [step_comment] at h ⊢
    split_ifs at h ⊢ <;> cases h <;> rfl

theorem foldlM_step_append {isEnd : Char → Bool} {mode mode' : Mode}
    (h : cs.foldlM (Reader.step isEnd) ⟨mode, o⟩ = some ⟨mode', o'⟩) (a : List Char) :
    cs.foldlM (Reader.step isEnd) ⟨mode, o ++ a⟩ = some ⟨mode', o' ++ a⟩ := by
  induction cs generalizing mode o with
  | nil =>
    cases h
    rfl
  | cons c cs ih =>
    rw [List.foldlM_cons] at h ⊢
    obtain ⟨⟨mode₁, o₁⟩, hstep, hrest⟩ := Option.bind_eq_some_iff.1 h
    rw [step_append hstep a]
    exact ih hrest

/-- The ends of lines matter only where they occur. -/
theorem step_congr {isEnd isEnd' : Char → Bool} (h : isEnd' c = isEnd c) (r : Reader) :
    r.step isEnd' c = r.step isEnd c := by
  obtain ⟨mode, a⟩ := r
  cases mode with
  | code | slash => rfl
  | string => rw [step_string, step_string, h]
  | escape => rw [step_escape, step_escape, h]
  | comment => rw [step_comment, step_comment, h]

theorem foldlM_step_congr {isEnd isEnd' : Char → Bool} (h : ∀ c ∈ cs, isEnd' c = isEnd c)
    (r : Reader) : cs.foldlM (Reader.step isEnd') r = cs.foldlM (Reader.step isEnd) r := by
  induction cs generalizing r with
  | nil => rfl
  | cons c cs ih =>
    obtain ⟨hc, hcs⟩ := List.forall_mem_cons.1 h
    rw [List.foldlM_cons, List.foldlM_cons, step_congr hc]
    exact bind_congr fun r' => ih hcs r'

/-! ## Pieces without the end of a line -/

/-- Characters without the end of a line lead from one reader to another. -/
structure Passes (r : Reader) (cs : List Char) (r' : Reader) : Prop where
  bare : ∀ c ∈ cs, isLineTerminator c = false
  run : cs.foldlM (Reader.step fun _ => false) r = some r'

theorem bare_iff : (∀ c ∈ cs, isLineTerminator c = false) ↔ cs.any isLineTerminator = false := by
  simp [List.any_eq_false]

-- The quantifier over characters is not decided as it stands: there are finitely many of them, and
-- an instance may go through all.
instance : Decidable (Passes r cs r') :=
  decidable_of_iff (cs.any isLineTerminator = false ∧
    cs.foldlM (Reader.step fun _ => false) r = some r')
    ⟨fun h => ⟨bare_iff.2 h.1, h.2⟩, fun h => ⟨bare_iff.1 h.1, h.2⟩⟩

namespace Passes

theorem nil (r : Reader) : Passes r [] r := ⟨List.forall_mem_nil _, rfl⟩

theorem append {r'' : Reader} (hcs : Passes r cs r') (hds : Passes r' ds r'') :
    Passes r (cs ++ ds) r'' := by
  refine ⟨List.forall_mem_append.2 ⟨hcs.bare, hds.bare⟩, ?_⟩
  rw [List.foldlM_append, hcs.run]
  exact hds.run

/-- It does not matter which characters end a line. -/
theorem foldlM (h : Passes r cs r') (ends : LineEnds) :
    cs.foldlM (Reader.step ends.isEnd) r = some r' := by
  rw [← h.run]
  exact foldlM_step_congr (fun c hc => ends.isEnd_of_bare (h.bare c hc)) r

/-- Brackets further out stay as they are. -/
theorem inside {mode mode' : Mode} (h : Passes ⟨mode, o⟩ cs ⟨mode', o'⟩) (a : List Char) :
    Passes ⟨mode, o ++ a⟩ cs ⟨mode', o' ++ a⟩ :=
  ⟨h.bare, foldlM_step_append h.run a⟩

/-- Characters of a kind that leaves the reader as it is. -/
theorem of_forall (h : ∀ c ∈ cs, Passes r [c] r) : Passes r cs r := by
  induction cs with
  | nil => exact nil r
  | cons c cs ih =>
    obtain ⟨hc, hcs⟩ := List.forall_mem_cons.1 h
    exact hc.append (ih hcs)

theorem of_plain (h : ∀ c ∈ cs, isPlain c = true) (a : List Char) :
    Passes ⟨.code, a⟩ cs ⟨.code, a⟩ := by
  refine of_forall fun c hc => ⟨List.forall_mem_singleton.2 (bare_of_isPlain (h c hc)), ?_⟩
  rw [List.foldlM_cons, step_code, readCode_plain (h c hc)]
  rfl

/-- Characters that do not matter in code do not matter in strings. -/
theorem of_plain_string (h : ∀ c ∈ cs, isPlain c = true) (a : List Char) :
    Passes ⟨.string, a⟩ cs ⟨.string, a⟩ := by
  refine of_forall fun c hc => ⟨List.forall_mem_singleton.2 (bare_of_isPlain (h c hc)), ?_⟩
  have hne := isPlain_iff.1 (h c hc)
  rw [List.foldlM_cons, step_string, if_neg Bool.false_ne_true, if_neg (hne '"' (by decide)),
    if_neg (hne '\\' (by decide))]
  rfl

/-- A comment goes on as long as its line. -/
theorem of_comment (h : ∀ c ∈ cs, isLineTerminator c = false) (a : List Char) :
    Passes ⟨.comment, a⟩ cs ⟨.comment, a⟩ :=
  of_forall fun c hc => ⟨List.forall_mem_singleton.2 (h c hc), rfl⟩

/-- Quotes around characters that stay in a string. -/
theorem quoted (h : Passes ⟨.string, []⟩ cs ⟨.string, []⟩) (a : List Char) :
    Passes ⟨.code, a⟩ ('"' :: (cs ++ ['"'])) ⟨.code, a⟩ := by
  have hopen : Passes ⟨.code, []⟩ ['"'] ⟨.string, []⟩ := by decide +kernel
  have hclose : Passes ⟨.string, []⟩ ['"'] ⟨.code, []⟩ := by decide +kernel
  exact (hopen.append (h.append hclose)).inside a

end Passes

/-! ## Quoted texts -/

section Quoted

open Text

theorem passes_hexDigits (width n : Nat) :
    Passes ⟨.string, []⟩ (hexDigits width n) ⟨.string, []⟩ := by
  have hdigit : ∀ m < 16, Passes ⟨.string, []⟩ [hexDigit m] ⟨.string, []⟩ := by decide +kernel
  induction width generalizing n with
  | zero => exact .nil _
  | succ width ih => exact (ih _).append (hdigit _ (Nat.mod_lt _ (by omega)))

theorem passes_shortEscape {letter : Char} (h : shortEscape? c = some letter) :
    Passes ⟨.string, []⟩ ['\\', letter] ⟨.string, []⟩ := by
  unfold shortEscape? at h
  split at h <;> cases h <;> decide +kernel

theorem bare_of_isPrintable (h : isPrintable c = true) : isLineTerminator c = false := by
  rw [Bool.eq_false_iff]
  intro hend
  have hcases : c = '\n' ∨ c = '\r' ∨ c = '\u2028' ∨ c = '\u2029' := by
    simpa [isLineTerminator] using hend
  rcases hcases with rfl | rfl | rfl | rfl <;> exact absurd h (by decide +kernel)

theorem passes_quoteChar (c : Char) :
    Passes ⟨.string, []⟩ (quoteChar '"' c) ⟨.string, []⟩ := by
  unfold quoteChar
  split
  · next h =>
    rw [Bool.or_eq_true, beq_iff_eq, beq_iff_eq] at h
    rcases h with rfl | rfl <;> decide +kernel
  · next h =>
    rw [Bool.or_eq_true, beq_iff_eq, beq_iff_eq, not_or] at h
    split
    · next hprint =>
      refine ⟨List.forall_mem_singleton.2 (bare_of_isPrintable hprint), ?_⟩
      rw [List.foldlM_cons, step_string, if_neg Bool.false_ne_true, if_neg h.1, if_neg h.2]
      rfl
    · split
      · next letter hletter => exact passes_shortEscape hletter
      · have hescape (letter : Char) (width : Nat)
            (h : Passes ⟨.string, []⟩ ['\\', letter] ⟨.string, []⟩) :
            Passes ⟨.string, []⟩ ('\\' :: letter :: hexDigits width c.toNat) ⟨.string, []⟩ :=
          h.append (passes_hexDigits width c.toNat)
        split_ifs
        · exact hescape 'x' 2 (by decide +kernel)
        · exact hescape 'u' 4 (by decide +kernel)
        · exact hescape 'U' 8 (by decide +kernel)

/-- A quoted text is one literal. -/
theorem passes_quote (s : String) (a : List Char) :
    Passes ⟨.code, a⟩ (quote s).toList ⟨.code, a⟩ := by
  have hinner (cs : List Char) :
      Passes ⟨.string, []⟩ (cs.flatMap (quoteChar '"')) ⟨.string, []⟩ := by
    induction cs with
    | nil => exact .nil _
    | cons c cs ih => exact (passes_quoteChar c).append ih
  rw [quote, String.toList_ofList]
  exact (hinner _).quoted a

end Quoted

/-! ## Pieces of text -/

/-- Whether the character ends a line and is no line feed. -/
def LineEnds.isOdd (ends : LineEnds) (c : Char) : Bool := ends.isEnd c && c != '\n'

theorem LineEnds.isOdd_of_bare (h : isLineTerminator c = false) : ends.isOdd c = false := by
  rw [isOdd, ends.isEnd_of_bare h, Bool.false_and]

theorem LineEnds.isOdd_lineFeed : ends.isOdd '\n' = false := by simp [isOdd]

theorem LineEnds.isOdd_of_ne (h : c ≠ '\n') : ends.isOdd c = ends.isEnd c := by simp [isOdd, h]

/-- The piece leads from code inside some brackets to code inside others, unless a line ends in it
other than by a line feed.  Then it leads nowhere. -/
def Reads (ends : LineEnds) (a cs b : List Char) : Prop :=
  cs.foldlM (Reader.step ends.isEnd) ⟨.code, a⟩ =
    if cs.any ends.isOdd then none else some ⟨.code, b⟩

theorem Reads.append (hcs : Reads ends a cs b) (hds : Reads ends b ds o) :
    Reads ends a (cs ++ ds) o := by
  rw [Reads] at hcs hds ⊢
  rw [List.foldlM_append, hcs, List.any_append]
  cases cs.any ends.isOdd with
  | true => rfl
  | false =>
    rw [if_neg Bool.false_ne_true, Bool.false_or, ← hds]
    rfl

theorem Passes.any_isOdd (h : Passes r cs r') : cs.any ends.isOdd = false :=
  List.any_eq_false.2 fun c hc => by simp [LineEnds.isOdd_of_bare (h.bare c hc)]

theorem Passes.reads (h : Passes ⟨.code, a⟩ cs ⟨.code, b⟩) : Reads ends a cs b := by
  rw [Reads, h.any_isOdd, h.foldlM]
  rfl

theorem reads_lineFeed (a : List Char) : Reads ends a ['\n'] a := by
  rw [Reads, List.any_cons, LineEnds.isOdd_lineFeed]
  rfl

/-- A comment is over with its line. -/
theorem reads_comment (h : Passes ⟨.code, a⟩ cs ⟨.comment, a⟩) :
    Reads ends a (cs ++ ['\n']) a := by
  have hend : ['\n'].foldlM (Reader.step ends.isEnd) ⟨.comment, a⟩ = some ⟨.code, a⟩ := by
    rw [List.foldlM_cons, step_comment, if_pos ends.lineFeed]
    rfl
  rw [Reads, List.foldlM_append, h.foldlM, List.any_append, h.any_isOdd, List.any_cons,
    LineEnds.isOdd_lineFeed]
  exact hend

/-- Behind its first quote, the literal of a string leads back into code. -/
theorem foldlM_stringBody (h : Token.stringBody cs = (cs, true)) (a : List Char) :
    cs.foldlM (Reader.step ends.isEnd) ⟨.string, a⟩ =
      if cs.any ends.isOdd then none else some ⟨.code, a⟩ := by
  have hquote : isLineTerminator '"' = false := by decide
  have hslash : isLineTerminator '\\' = false := by decide
  fun_induction Token.stringBody cs with
  | case1 | case2 | case4 => cases h
  | case3 rest =>
    cases h
    rw [List.foldlM_cons, step_string, ends.isEnd_of_bare hquote, List.any_cons,
      LineEnds.isOdd_of_bare hquote]
    rfl
  | case5 c rest hc text closed heq ih =>
    cases h
    rw [List.foldlM_cons, step_string, ends.isEnd_of_bare hslash, List.any_cons,
      LineEnds.isOdd_of_bare hslash, List.any_cons, LineEnds.isOdd_of_ne hc]
    change (Reader.step ends.isEnd ⟨.escape, a⟩ c >>= rest.foldlM (Reader.step ends.isEnd)) = _
    rw [step_escape]
    cases ends.isEnd c with
    | true => rfl
    | false => exact ih heq
  | case6 c rest hc hother _ hescape text closed heq ih =>
    cases h
    have hbackslash : c ≠ '\\' := by
      rintro rfl
      cases rest with
      | nil => cases heq
      | cons d rest => exact hescape d rest rfl rfl
    rw [List.foldlM_cons, step_string, if_neg hother, if_neg hbackslash, List.any_cons,
      LineEnds.isOdd_of_ne hc]
    cases ends.isEnd c with
    | true => rfl
    | false => exact ih heq

theorem reads_literal (h : Token.stringBody cs = (cs, true)) (a : List Char) :
    Reads ends a ('"' :: cs) a := by
  have hodd : ends.isOdd '"' = false := LineEnds.isOdd_of_bare (by decide)
  rw [Reads, List.foldlM_cons, List.any_cons, hodd]
  exact foldlM_stringBody h a

/-- The piece reads from some brackets to others, and all characters in it that may end a line are
line feeds or allowed. -/
structure Spells (ends : LineEnds) (Q : Char → Prop) (a cs b : List Char) : Prop where
  reads : Reads ends a cs b
  allowed : ∀ c ∈ cs, isLineTerminator c = true → c = '\n' ∨ Q c

theorem Spells.append (hcs : Spells ends Q a cs b) (hds : Spells ends Q b ds o) :
    Spells ends Q a (cs ++ ds) o :=
  ⟨hcs.reads.append hds.reads, List.forall_mem_append.2 ⟨hcs.allowed, hds.allowed⟩⟩

theorem Passes.not_mem_terminators (h : Passes r cs r') :
    ∀ c ∈ cs, isLineTerminator c = true → c = '\n' ∨ Q c := by
  intro c hc hend
  rw [h.bare c hc] at hend
  cases hend

theorem Passes.spells (h : Passes ⟨.code, a⟩ cs ⟨.code, b⟩) : Spells ends Q a cs b :=
  ⟨h.reads, h.not_mem_terminators⟩

theorem spells_lineFeed (a : List Char) : Spells ends Q a ['\n'] a :=
  ⟨reads_lineFeed a, List.forall_mem_singleton.2 fun _ => .inl rfl⟩

theorem spells_comment (h : Passes ⟨.code, a⟩ cs ⟨.comment, a⟩) :
    Spells ends Q a (cs ++ ['\n']) a :=
  ⟨reads_comment h, List.forall_mem_append.2
    ⟨h.not_mem_terminators, List.forall_mem_singleton.2 fun _ => .inl rfl⟩⟩

/-- The literal of a string, whose characters are all allowed. -/
theorem spells_literal {s : String} (h : IsStringValue s) (hs : ∀ c ∈ s.toList, Q c)
    (a : List Char) : Spells ends Q a (literalOf s) a := by
  obtain ⟨cs, htext, hbody⟩ := (h.found []).string_of_kind rfl
  have htext : literalOf s = '"' :: cs := htext
  refine ⟨htext ▸ reads_literal hbody a, ?_⟩
  intro c hc hend
  rw [literalOf, escapeQuotes, String.toList_ofList, List.mem_cons, List.mem_append,
    List.mem_singleton, List.mem_flatMap] at hc
  rcases hc with rfl | ⟨d, hd, hc⟩ | rfl
  · cases hend
  · split at hc
    · rcases List.mem_pair.1 hc with rfl | rfl <;> cases hend
    · rw [List.mem_singleton] at hc
      exact .inr (hc ▸ hs d hd)
  · cases hend

/-! ## Scripts as text -/

/-- What an item adds to the text, apart from indentation: nothing if it is left out with the
layout. -/
def Item.chars (layout : Bool) (i : Item) : List Char :=
  if i.isLayout && !layout then []
  else i.content.text.toList ++ if i.endsLine then ['\n'] else []

/-- The text of a script without indentation. -/
def flat (layout : Bool) (s : Script) : List Char := s.flatMap (Item.chars layout)

theorem flat_append (layout : Bool) (s t : Script) :
    flat layout (s ++ t) = flat layout s ++ flat layout t := List.flatMap_append

theorem Item.chars_congr (layout : Bool) {i j : Item} (h : i.content = j.content) :
    i.chars layout = j.chars layout := by
  obtain ⟨content, _, _⟩ := i
  obtain rfl : content = j.content := h
  rfl

theorem flat_map (layout : Bool) {f : Item → Item} (hf : ∀ i, (f i).content = i.content)
    (s : Script) : flat layout (s.map f) = flat layout s := by
  rw [flat, List.flatMap_map]
  exact List.flatMap_congr fun i _ => Item.chars_congr layout (hf i)

theorem flat_compact (s : Script) : flat true (compact s) = flat false s := by
  refine (flat_map true (f := fun i => { i with indent := 0 }) (fun _ => rfl) _).trans ?_
  induction s with
  | nil => rfl
  | cons i s ih =>
    rw [flat, flat, List.flatMap_cons, ← flat, ← flat, ← ih]
    cases hlayout : i.isLayout with
    | true => simp [hlayout, Item.chars]
    | false => simp [hlayout, Item.chars, flat]

/-- An item after which a line is fresh leaves no line unfinished. -/
theorem writeOn_of_fresh {i : Item} {spot : Spot} {current : Option Line}
    (h : i.content.next spot = some .fresh) (hends : i.endsLine = false)
    (hc : spot = .fresh → current = none) : i.writeOn current = none := by
  obtain ⟨content, indent, origin⟩ := i
  have htext (t : String) : nextAfterText t spot ≠ some .fresh := by
    cases spot <;> simp [nextAfterText]
  cases content with
  | code t | use n t | bind t owner => exact absurd h (htext t)
  | enter | leave =>
    obtain rfl := hc (Option.some.inj h)
    rfl
  | lineEnd | comment t | blankLine => cases hends

/-- The unfinished line with the text of a script behind it is the text of the lines. -/
theorem flat_lines {s : Script} {spot : Spot} {current : Option Line} (h : Leads spot s .fresh)
    (hc : spot = .fresh → current = none) :
    (linesFrom current s).flatMap (fun l => l.text.toList ++ ['\n']) =
      (current.elim [] fun l => l.text.toList) ++ flat true s := by
  have hwrite (i : Item) (current : Option Line) :
      (i.writeOn current).elim [] (fun l => l.text.toList) =
        current.elim [] (fun l => l.text.toList) ++ i.content.text.toList := by
    unfold Item.writeOn
    split
    · next hempty => simp [String.isEmpty_iff.1 hempty]
    · cases current <;> simp
  induction s generalizing spot current with
  | nil =>
    obtain rfl := hc (leads_nil.1 h)
    rfl
  | cons i s ih =>
    obtain ⟨next, hnext, hs⟩ := leads_cons.1 h
    have hflat : flat true (i :: s) = Item.chars true i ++ flat true s := List.flatMap_cons
    rw [linesFrom, hflat]
    split
    · next hends =>
      have hline : ((i.writeOn current).getD {}).text.toList =
          (i.writeOn current).elim [] fun l => l.text.toList := by
        cases i.writeOn current <;> rfl
      rw [List.flatMap_cons, ih hs fun _ => rfl, hline, hwrite]
      simp [Item.chars, hends]
    · next hends =>
      have hnone : next = .fresh → i.writeOn current = none := by
        rintro rfl
        exact writeOn_of_fresh hnext (Bool.eq_false_iff.2 hends) hc
      rw [ih hs hnone, hwrite]
      simp [Item.chars, hends]

/-- Comments may be left out of a script of whole lines. -/
theorem Leads.compact {s : Script} {spot spot' : Spot} (h : Leads spot s spot') :
    Leads spot (compact s) spot' := by
  refine (leads_map (f := fun i => { i with indent := 0 }) fun _ => rfl).2 ?_
  induction s generalizing spot with
  | nil => exact h
  | cons i s ih =>
    obtain ⟨next, hnext, hs⟩ := leads_cons.1 h
    cases hlayout : i.isLayout with
    | false =>
      rw [List.filter_cons_of_pos (by simp [hlayout])]
      exact leads_cons.2 ⟨next, hnext, ih hs⟩
    | true =>
      rw [List.filter_cons_of_neg (by simp [hlayout])]
      obtain ⟨content, indent, origin⟩ := i
      cases content with
      | comment t =>
        cases spot with
        | inside => cases hnext
        | fresh =>
          obtain rfl := Option.some.inj (Option.ite_none_right_eq_some.1 hnext).2
          exact ih hs
      | blankLine => cases hnext
      | _ => cases hlayout

/-- Indentation does not matter to a reader, which is in code at the start of every line. -/
theorem foldlM_rows (ls : List Line) (a : List Char) :
    (ls.flatMap fun l => l.row ++ ['\n']).foldlM (Reader.step ends.isEnd) ⟨.code, a⟩ =
      (ls.flatMap fun l => l.text.toList ++ ['\n']).foldlM (Reader.step ends.isEnd) ⟨.code, a⟩ := by
  induction ls generalizing a with
  | nil => rfl
  | cons l ls ih =>
    have hblanks : Passes ⟨.code, a⟩ (List.replicate (2 * l.indent) ' ') ⟨.code, a⟩ :=
      .of_plain (fun c hc => List.eq_of_mem_replicate hc ▸ by decide) a
    have hrow (rest : List Char) :
        (l.row ++ ['\n'] ++ rest).foldlM (Reader.step ends.isEnd) ⟨.code, a⟩ =
          (l.text.toList ++ ['\n'] ++ rest).foldlM (Reader.step ends.isEnd) ⟨.code, a⟩ := by
      rw [Line.row, List.append_assoc, List.append_assoc, List.foldlM_append, hblanks.foldlM ends,
        List.append_assoc]
      rfl
    rw [List.flatMap_cons, List.flatMap_cons, hrow, List.foldlM_append,
      List.foldlM_append (l := l.text.toList ++ ['\n'])]
    cases hr : (l.text.toList ++ ['\n']).foldlM (Reader.step ends.isEnd) ⟨.code, a⟩ with
    | none => rfl
    | some r =>
      rw [List.foldlM_append] at hr
      obtain ⟨r₀, -, hlast⟩ := Option.bind_eq_some_iff.1 hr
      rw [List.foldlM_cons] at hlast
      obtain ⟨⟨mode, closers⟩, hstep, hend⟩ := Option.bind_eq_some_iff.1 hlast
      obtain rfl : mode = .code := mode_of_lineFeed hstep
      obtain rfl := Option.some.inj hend
      exact ih closers

/-- The rows of a script of whole lines spell what its text without indentation does. -/
theorem Spells.rows {s : Script} (hs : Leads .fresh s .fresh)
    (h : Spells ends Q a (flat true s) b) :
    Spells ends Q a ((lines s).flatMap fun l => l.row ++ ['\n']) b := by
  have hflat : ((lines s).flatMap fun l => l.text.toList ++ ['\n']) = flat true s :=
    flat_lines hs fun _ => rfl
  have hmem : ∀ c, isLineTerminator c = true →
      (c ∈ ((lines s).flatMap fun l => l.row ++ ['\n']) ↔ c ∈ flat true s) := by
    intro c hc
    have hblank (n : Nat) : c ∉ List.replicate n ' ' := by
      intro hmem
      rw [List.eq_of_mem_replicate hmem] at hc
      cases hc
    rw [← hflat]
    simp only [List.mem_flatMap, Line.row, List.mem_append, hblank, false_or]
  have hodd : ((lines s).flatMap fun l => l.row ++ ['\n']).any ends.isOdd =
      (flat true s).any ends.isOdd := by
    rw [Bool.eq_iff_iff, List.any_eq_true, List.any_eq_true]
    have hend {c : Char} (hc : ends.isOdd c = true) : isLineTerminator c = true :=
      ends.known c (Bool.and_eq_true_iff.1 hc).1
    exact exists_congr fun c => and_congr_left fun hc => hmem c (hend hc)
  refine ⟨?_, fun c hc hend => h.allowed c ((hmem c hend).1 hc) hend⟩
  rw [Reads, foldlM_rows, hflat, hodd]
  exact h.reads

end Easel.Script
