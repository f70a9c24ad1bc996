import Easel.Proofs.Script.Brackets
import Easel.Proofs.Script.Canvas

/-!
# What a quoted text denotes

A browser reads a string literal from its opening quote to the first quote that is not escaped and
takes the escapes for what they stand for (`Literal.read`).  A text in which only quotes are escaped
is read back exactly if it has no backslash and no end of a line of its own: every escape takes up
more than it denotes, and one that denotes a quote makes up for this only if it is a backslash and
the quote (`Literal.bounded`).
-/

namespace Easel.Script

namespace Literal

/-! ## Reading a literal -/

/-- The code units of a code point. -/
def unitsOf (n : Nat) : List Nat :=
  if n < 0x10000 then [n] else [0xd800 + (n - 0x10000) / 0x400, 0xdc00 + (n - 0x10000) % 0x400]

/-- The code units of a text. -/
def units (cs : List Char) : List Nat := cs.flatMap fun c => unitsOf c.toNat

/-- Where in a literal a reader is: in its text, behind a backslash, behind `\u`, before more digits
of an escape of fixed length, in an escape in braces, before more octal digits, or behind a backslash
and a carriage return. -/
inductive Mode where
  | text
  | escape
  | unicode
  | digits (left value : Nat)
  | braces (value : Option Nat)
  | octal (left value : Nat)
  | carriageReturn
  deriving DecidableEq

/-- The code point that a character denotes behind a backslash, if it starts no longer escape. -/
def escaped (c : Char) : Nat :=
  if c = 'b' then 8 else if c = 't' then 9 else if c = 'n' then 10 else if c = 'v' then 11
  else if c = 'f' then 12 else if c = 'r' then 13 else c.toNat

/-- The value of an octal digit. -/
def octalValue? (c : Char) : Option Nat :=
  if '0' ≤ c ∧ c ≤ '7' then some (c.toNat - 48) else none

/-- Read a character behind a backslash: the code units it denotes and where the reader is behind it.
The end of a line is left out there. -/
def readEscape (c : Char) : List Nat × Mode :=
  if isLineTerminator c then ([], if c = '\r' then .carriageReturn else .text)
  else if c = 'u' then ([], .unicode)
  else if c = 'x' then ([], .digits 2 0)
  else match octalValue? c with
    | some d => ([], .octal (if d < 4 then 2 else 1) d)
    | none => (unitsOf (escaped c), .text)

/-- Read a character of text, which closes the literal if it is a quote.  The end of a line may not
stand in a literal. -/
def readText (isEnd : Char → Bool) (c : Char) : Option (List Nat × Option Mode) :=
  if isEnd c then none
  else if c = '"' then some ([], none)
  else if c = '\\' then some ([], some .escape)
  else some (unitsOf c.toNat, some .text)

/-- Read a character, if it may stand where the reader is. -/
def step (isEnd : Char → Bool) (mode : Mode) (c : Char) : Option (List Nat × Option Mode) :=
  match mode with
  | .text => readText isEnd c
  | .escape => some ((readEscape c).1, some (readEscape c).2)
  | .unicode =>
    if c = '{' then some ([], some (.braces none))
    else (Text.hexValue? c).map fun d => ([], some (.digits 3 d))
  | .digits left value =>
    (Text.hexValue? c).map fun d =>
      if left ≤ 1 then ([16 * value + d], some .text)
      else ([], some (.digits (left - 1) (16 * value + d)))
  | .braces value =>
    if c = '}' then
      match value with
      | some n => if n ≤ 0x10ffff then some (unitsOf n, some .text) else none
      | none => none
    else (Text.hexValue? c).map fun d => ([], some (.braces (some (16 * value.getD 0 + d))))
  | .octal left value =>
    match if left = 0 then none else octalValue? c with
    | some d => some ([], some (.octal (left - 1) (8 * value + d)))
    | none => (readText isEnd c).map fun r => (value :: r.1, r.2)
  | .carriageReturn => if c = '\n' then some ([], some .text) else readText isEnd c

/-- Read the rest of a literal: the code units it denotes and what stands behind its closing quote,
if it is closed. -/
def read (isEnd : Char → Bool) (mode : Mode) : List Char → Option (List Nat × List Char)
  | [] => none
  | c :: cs =>
    match step isEnd mode c with
    | none => none
    | some (value, none) => some (value, cs)
    | some (value, some next) => (read isEnd next cs).map fun r => (value ++ r.1, r.2)

/-! ## What escapes cost -/

/-- The number of code units of a text. -/
def width (cs : List Char) : Nat := (units cs).length

/-- The number of code units that it takes at least to write some: those of a quote count twice. -/
def cost (value : List Nat) : Nat := value.length + value.count 34

theorem cost_append (value more : List Nat) : cost (value ++ more) = cost value + cost more := by
  rw [cost, cost, cost, List.length_append, List.count_append]
  omega

theorem width_cons (c : Char) (cs : List Char) :
    width (c :: cs) = (unitsOf c.toNat).length + width cs := by
  rw [width, units, List.flatMap_cons, List.length_append]
  rfl

theorem one_le_length_unitsOf (n : Nat) : 1 ≤ (unitsOf n).length := by
  rw [unitsOf]
  split
  · exact Nat.le_refl 1
  · exact Nat.le_succ 1

theorem cost_unitsOf (n : Nat) :
    cost (unitsOf n) = (unitsOf n).length + if n = 34 then 1 else 0 := by
  rw [cost, unitsOf]
  split
  · by_cases hn : n = 34 <;> simp [hn]
  · rw [if_neg (by omega), List.count_eq_zero_of_not_mem]
    simp only [List.mem_cons, List.not_mem_nil, or_false]
    omega

theorem cost_unitsOf_le (n : Nat) : cost (unitsOf n) ≤ 2 := by
  rw [cost_unitsOf, unitsOf]
  split
  · rw [List.length_singleton]
    split <;> omega
  · rw [if_neg (by omega)]
    exact Nat.le_refl 2

/-- What it costs to write a single code unit. -/
theorem cost_singleton (n : Nat) : cost [n] = if n = 34 then 2 else 1 := by
  by_cases hn : n = 34 <;> simp [cost, hn]

theorem cost_unitsOf_of_ne {n : Nat} (hn : n ≠ 34) : cost (unitsOf n) = (unitsOf n).length := by
  rw [cost_unitsOf, if_neg hn]
  rfl

theorem toNat_ne_quote {c : Char} (hc : c ≠ '"') : c.toNat ≠ 34 :=
  fun h => hc (Char.toNat_inj.1 h)

/-- The characters have no backslash and no end of a line. -/
def Bare (ends : LineEnds) (cs : List Char) : Prop :=
  ∀ c ∈ cs, c ≠ '\\' ∧ ends.isEnd c = false

theorem bare_of_all {cs : List Char} (h : cs.all (fun c => c != '\\' && !isLineTerminator c) = true)
    (ends : LineEnds) : Bare ends cs := by
  intro c hc
  have hchar := List.all_eq_true.1 h c hc
  rw [Bool.and_eq_true, bne_iff_ne, Bool.not_eq_true'] at hchar
  exact ⟨hchar.1, ends.isEnd_of_bare hchar.2⟩

/-- The characters are some without a backslash or an end of a line, with their quotes escaped. -/
def Escaped (ends : LineEnds) (used : List Char) : Prop := ∃ cs, used = escape cs ∧ Bare ends cs

/-- What the characters cost that a reader has gone through in an escape and that have not yet
denoted anything. -/
def Mode.debt : Mode → Nat
  | .text => 0
  | .escape => 1
  | .unicode | .digits _ _ | .carriageReturn => 2
  | .braces _ => 3
  | .octal _ value => if value < 8 then 2 else 3

/-- The characters cost no less than what they denote, and more unless the only escapes are those of
quotes. -/
def Fits (ends : LineEnds) (used : List Char) (value : List Nat) (mode : Mode) : Prop :=
  cost value < width used + mode.debt ∨
    cost value = width used + mode.debt ∧
      ((mode = .text ∧ Escaped ends used) ∨
        (mode = .escape ∧ ∃ rest, used = '"' :: rest ∧ Escaped ends rest))

variable {ends : LineEnds} {used : List Char} {value out : List Nat} {mode next : Mode} {c : Char}

theorem Fits.le (h : Fits ends used value mode) : cost value ≤ width used + mode.debt := by
  rcases h with h | h <;> omega

theorem Fits.lt (h : Fits ends used value mode) (htext : mode ≠ .text) (hescape : mode ≠ .escape) :
    cost value < width used + mode.debt := by
  rcases h with h | ⟨-, ⟨rfl, -⟩ | ⟨rfl, -⟩⟩
  · exact h
  · exact absurd rfl htext
  · exact absurd rfl hescape

/-- A character pays for what is denoted behind it and for one unit less than it takes. -/
theorem Fits.of_le (h : Fits ends used value next) (hdebt : cost out + next.debt ≤ mode.debt) :
    Fits ends (c :: used) (out ++ value) mode := by
  have hle := h.le
  have hone := one_le_length_unitsOf c.toNat
  refine .inl ?_
  rw [cost_append, width_cons]
  omega

/-- In the middle of a longer escape it pays for all that it takes. -/
theorem Fits.of_lt (h : Fits ends used value next) (htext : next ≠ .text) (hescape : next ≠ .escape)
    (hdebt : cost out + next.debt ≤ mode.debt + 1) : Fits ends (c :: used) (out ++ value) mode := by
  have hlt := h.lt htext hescape
  have hone := one_le_length_unitsOf c.toNat
  refine .inl ?_
  rw [cost_append, width_cons]
  omega

/-- An escape that ends before a character of text. -/
theorem Fits.of_text (h : Fits ends used value .text) (hdebt : cost out < mode.debt) :
    Fits ends used (out ++ value) mode := by
  have hle : cost value ≤ width used := h.le
  refine .inl ?_
  rw [cost_append]
  omega

theorem isEnd_quote (ends : LineEnds) : ends.isEnd '"' = false := ends.isEnd_of_bare rfl

theorem Escaped.quote (h : Escaped ends used) : Escaped ends ('\\' :: '"' :: used) := by
  obtain ⟨cs, rfl, hcs⟩ := h
  exact ⟨'"' :: cs, rfl, List.forall_mem_cons.2 ⟨⟨by decide, isEnd_quote ends⟩, hcs⟩⟩

theorem Escaped.cons (h : Escaped ends used) (hquote : c ≠ '"') (hback : c ≠ '\\')
    (hend : ends.isEnd c = false) : Escaped ends (c :: used) := by
  obtain ⟨cs, rfl, hcs⟩ := h
  refine ⟨c :: cs, ?_, List.forall_mem_cons.2 ⟨⟨hback, hend⟩, hcs⟩⟩
  rw [escape_cons hquote]

/-! ## One character -/

theorem readText_closed (h : readText ends.isEnd c = some (out, none)) : c = '"' ∧ out = [] := by
  unfold readText at h
  split_ifs at h with hend hquote hback
  · cases h
    exact ⟨hquote, rfl⟩
  · cases h
  · cases h

theorem Fits.readText (h : Fits ends used value next)
    (hstep : readText ends.isEnd c = some (out, some next)) :
    Fits ends (c :: used) (out ++ value) .text := by
  unfold Literal.readText at hstep
  split_ifs at hstep with hend hquote hback
  · cases hstep
  · cases hstep
    subst hback
    have hwidth : width ('\\' :: used) = 1 + width used := width_cons _ _
    rcases h with h | ⟨h, ⟨heq, -⟩ | ⟨-, rest, rfl, hrest⟩⟩
    · refine .inl ?_
      simp only [Mode.debt, List.nil_append] at h ⊢
      omega
    · cases heq
    · refine .inr ⟨?_, .inl ⟨rfl, hrest.quote⟩⟩
      simp only [Mode.debt, List.nil_append] at h ⊢
      omega
  · cases hstep
    have hwidth := width_cons c used
    have hcost := cost_append (unitsOf c.toNat) value
    rw [cost_unitsOf_of_ne (toNat_ne_quote hquote)] at hcost
    rcases h with h | ⟨h, ⟨-, hused⟩ | ⟨heq, -⟩⟩
    · refine .inl ?_
      simp only [Mode.debt] at h ⊢
      omega
    · refine .inr ⟨?_, .inl ⟨rfl, hused.cons hquote hback (Bool.eq_false_iff.2 hend)⟩⟩
      simp only [Mode.debt] at h ⊢
      omega
    · cases heq

theorem cost_escaped_le (hc : c ≠ '"') : cost (unitsOf (escaped c)) ≤ (unitsOf c.toNat).length := by
  unfold escaped
  split_ifs
  on_goal 7 => exact (cost_unitsOf_of_ne (toNat_ne_quote hc)).le
  all_goals exact one_le_length_unitsOf c.toNat

theorem lt_of_octalValue? {d : Nat} (h : octalValue? c = some d) : d < 8 := by
  unfold octalValue? at h
  split at h
  · rename_i hc
    have hle : c.toNat ≤ 55 := hc.2
    cases h
    omega
  · cases h

theorem Fits.readEscape (h : Fits ends used value (readEscape c).2) :
    Fits ends (c :: used) ((readEscape c).1 ++ value) .escape := by
  unfold Literal.readEscape at h ⊢
  split_ifs at h ⊢ with hend hreturn hu hx
  · exact h.of_lt (by decide) (by decide) (by decide)
  · exact h.of_le (by decide)
  · exact h.of_lt (by decide) (by decide) (by decide)
  · exact h.of_lt (by decide) (by decide) (by decide)
  · split at h
    next d hd =>
      refine h.of_lt (by rintro ⟨⟩) (by rintro ⟨⟩) ?_
      simp only [Mode.debt, if_pos (lt_of_octalValue? hd)]
      decide
    next hd =>
      have hwidth := width_cons c used
      have hcost := cost_append (unitsOf (escaped c)) value
      by_cases hquote : c = '"'
      · subst hquote
        have htwo : cost (unitsOf (escaped '"')) = 2 := by decide
        have hlen : (unitsOf '"'.toNat).length = 1 := by decide
        rcases h with h | ⟨h, ⟨-, hused⟩ | ⟨heq, -⟩⟩
        · refine .inl ?_
          simp only [Mode.debt] at h ⊢
          omega
        · refine .inr ⟨?_, .inr ⟨rfl, used, rfl, hused⟩⟩
          simp only [Mode.debt] at h ⊢
          omega
        · cases heq
      · have hle := h.le
        have hc := cost_escaped_le hquote
        refine .inl ?_
        simp only [Mode.debt] at hle ⊢
        omega

theorem cost_singleton_lt_debt (left n : Nat) : cost [n] < (Mode.octal left n).debt := by
  rw [cost_singleton, Mode.debt]
  split <;> split <;> omega

/-- A character that the reader goes on behind. -/
theorem Fits.step (h : Fits ends used value next)
    (hstep : step ends.isEnd mode c = some (out, some next)) :
    Fits ends (c :: used) (out ++ value) mode := by
  cases mode with
  | text => exact h.readText hstep
  | escape =>
    cases hstep
    exact h.readEscape
  | unicode =>
    simp only [Literal.step] at hstep
    split at hstep
    · cases hstep
      exact h.of_lt (by decide) (by decide) (by decide)
    · obtain ⟨d, -, hd⟩ := Option.map_eq_some_iff.1 hstep
      cases hd
      exact h.of_le (Nat.le_refl 2)
  | digits left n =>
    obtain ⟨d, -, hd⟩ := Option.map_eq_some_iff.1 hstep
    split at hd
    · cases hd
      refine h.of_le ?_
      simp only [cost_singleton, Mode.debt]
      split <;> omega
    · cases hd
      exact h.of_le (Nat.le_refl 2)
  | braces n =>
    simp only [Literal.step] at hstep
    split at hstep
    · split at hstep
      · split at hstep
        · cases hstep
          exact h.of_le ((cost_unitsOf_le _).trans (Nat.le_succ 2))
        · cases hstep
      · cases hstep
    · obtain ⟨d, -, hd⟩ := Option.map_eq_some_iff.1 hstep
      cases hd
      exact h.of_le (Nat.le_refl 3)
  | octal left n =>
    simp only [Literal.step] at hstep
    split at hstep
    · cases hstep
      refine h.of_lt (by rintro ⟨⟩) (by rintro ⟨⟩) ?_
      simp only [Mode.debt]
      split <;> split <;> decide
    · obtain ⟨⟨r, _⟩, hr, heq⟩ := Option.map_eq_some_iff.1 hstep
      cases heq
      exact (h.readText hr).of_text (cost_singleton_lt_debt left n)
  | carriageReturn =>
    simp only [Literal.step] at hstep
    split at hstep
    · cases hstep
      exact h.of_le (by decide)
    · rw [← List.nil_append (out ++ value)]
      exact (h.readText hstep).of_text (by decide)

/-- The character that closes the literal. -/
theorem Fits.closed (hstep : Literal.step ends.isEnd mode c = some (out, none)) :
    c = '"' ∧ Fits ends [] out mode := by
  have nothing : Fits ends [] [] .text := .inr ⟨rfl, .inl ⟨rfl, [], rfl, by simp [Bare]⟩⟩
  cases mode with
  | text =>
    obtain ⟨hc, rfl⟩ := readText_closed hstep
    exact ⟨hc, nothing⟩
  | escape => cases hstep
  | unicode =>
    simp only [Literal.step] at hstep
    split at hstep
    · cases hstep
    · obtain ⟨d, -, hd⟩ := Option.map_eq_some_iff.1 hstep
      cases hd
  | digits left n =>
    obtain ⟨d, -, hd⟩ := Option.map_eq_some_iff.1 hstep
    split at hd <;> cases hd
  | braces n =>
    simp only [Literal.step] at hstep
    split at hstep
    · split at hstep
      · split at hstep <;> cases hstep
      · cases hstep
    · obtain ⟨d, -, hd⟩ := Option.map_eq_some_iff.1 hstep
      cases hd
  | octal left n =>
    simp only [Literal.step] at hstep
    split at hstep
    · cases hstep
    · obtain ⟨⟨r, _⟩, hr, heq⟩ := Option.map_eq_some_iff.1 hstep
      cases heq
      obtain ⟨hc, rfl⟩ := readText_closed hr
      exact ⟨hc, nothing.of_text (cost_singleton_lt_debt left n)⟩
  | carriageReturn =>
    simp only [Literal.step] at hstep
    split at hstep
    · cases hstep
    · obtain ⟨hc, rfl⟩ := readText_closed hstep
      exact ⟨hc, .inl (by decide)⟩

/-- What a reader goes through costs no less than what it denotes. -/
theorem bounded {cs rest : List Char} (h : read ends.isEnd mode cs = some (value, rest)) :
    ∃ used, cs = used ++ '"' :: rest ∧ Fits ends used value mode := by
  induction cs generalizing mode value with
  | nil => cases h
  | cons c cs ih =>
    rw [read] at h
    split at h
    · cases h
    next out hstep =>
      cases h
      obtain ⟨rfl, hfits⟩ := Fits.closed hstep
      exact ⟨[], rfl, hfits⟩
    next out next hstep =>
      obtain ⟨⟨tail, _⟩, hread, heq⟩ := Option.map_eq_some_iff.1 h
      cases heq
      obtain ⟨used, rfl, hfits⟩ := ih hread
      exact ⟨c :: used, rfl, hfits.step hstep⟩

/-! ## Reading escaped text back -/

/-- Escaping quotes takes no more than it has to. -/
theorem width_escape (cs : List Char) : width (escape cs) = cost (units cs) := by
  induction cs with
  | nil => rfl
  | cons c cs ih =>
    have hcost : cost (units (c :: cs)) = cost (unitsOf c.toNat) + cost (units cs) :=
      cost_append _ _
    by_cases hquote : c = '"'
    · subst hquote
      have hwidth : width (escape ('"' :: cs)) = 1 + (1 + width (escape cs)) := by
        rw [escape_quote, width_cons, width_cons]
        rfl
      have htwo : cost (unitsOf '"'.toNat) = 2 := by decide
      omega
    · have hwidth : width (escape (c :: cs)) = (unitsOf c.toNat).length + width (escape cs) := by
        rw [escape_cons hquote, width_cons]
      have hone := cost_unitsOf_of_ne (toNat_ne_quote hquote)
      omega

theorem count_escape (x : Char) (cs : List Char) :
    (escape cs).count x = cs.count x + if x = '\\' then cs.count '"' else 0 := by
  induction cs with
  | nil => simp [escape]
  | cons c cs ih =>
    rw [escape, List.flatMap_cons, List.count_append, ← escape, ih]
    by_cases hquote : c = '"'
    · subst hquote
      by_cases hx : x = '\\'
      · subst hx
        simp
        omega
      · simp [List.count_cons, hx, Ne.symm hx]
        omega
    · simp [List.count_cons, hquote]
      omega

theorem isEnd_backslash (ends : LineEnds) : ends.isEnd '\\' = false := ends.isEnd_of_bare rfl

/-- Characters whose quotes are escaped have no backslash besides only if they had none before. -/
theorem bare_of_escaped {cs : List Char} (h : Escaped ends (escape cs)) : Bare ends cs := by
  obtain ⟨cs', heq, hcs'⟩ := h
  have hcount (x : Char) := congrArg (List.count x) heq
  simp only [count_escape] at hcount
  have hback : cs.count '\\' = 0 := by
    have hback' : cs'.count '\\' = 0 := List.count_eq_zero.2 fun hmem => (hcs' _ hmem).1 rfl
    have hquotes := hcount '"'
    have hbacks := hcount '\\'
    rw [if_neg (by decide), if_neg (by decide)] at hquotes
    rw [if_pos rfl, if_pos rfl] at hbacks
    omega
  intro c hc
  have hne : c ≠ '\\' := by
    rintro rfl
    exact List.count_eq_zero.1 hback hc
  have hsame := hcount c
  rw [if_neg hne, if_neg hne] at hsame
  have hpos := List.count_pos_iff.2 hc
  exact ⟨hne, (hcs' c (List.count_pos_iff.1 (by omega))).2⟩

/-- Escaped quotes are read back, and the literal ends where it is closed. -/
theorem read_escape {cs : List Char} (h : Bare ends cs) (rest : List Char) :
    read ends.isEnd .text (escape cs ++ '"' :: rest) = some (units cs, rest) := by
  induction cs with
  | nil =>
    rw [show escape [] = [] from rfl, List.nil_append, read, step, readText, isEnd_quote]
    rfl
  | cons c cs ih =>
    obtain ⟨⟨hback, hend⟩, hcs⟩ := List.forall_mem_cons.1 h
    by_cases hquote : c = '"'
    · subst hquote
      have hstep : step ends.isEnd .text '\\' = some ([], some .escape) := by
        rw [step, readText, isEnd_backslash]
        rfl
      have hescape : step ends.isEnd .escape '"' = some ([34], some .text) := rfl
      rw [escape_quote, List.cons_append, List.cons_append, read, hstep]
      dsimp only
      rw [read, hescape]
      dsimp only
      rw [ih hcs]
      rfl
    · rw [escape_cons hquote, List.cons_append, read, step, readText, hend, if_neg (by decide),
        if_neg hquote, if_neg hback]
      dsimp only
      rw [ih hcs]
      rfl

/-- A literal that takes no more than the escaped characters and denotes them has no other escapes
and takes no less. -/
theorem escaped_of_read {cs rest : List Char}
    (h : read ends.isEnd .text (used ++ '"' :: rest) = some (units cs, rest))
    (hwidth : width used ≤ width (escape cs)) :
    Escaped ends used ∧ width used = width (escape cs) := by
  obtain ⟨used', heq, hfits⟩ := bounded h
  obtain rfl := List.append_cancel_right heq
  rw [width_escape] at hwidth ⊢
  rcases hfits with hlt | ⟨hcost, ⟨-, hescaped⟩ | ⟨hmode, -⟩⟩
  · simp only [Mode.debt] at hlt
    omega
  · simp only [Mode.debt] at hcost
    exact ⟨hescaped, by omega⟩
  · cases hmode

theorem width_append (cs ds : List Char) : width (cs ++ ds) = width cs + width ds := by
  rw [width, units, List.flatMap_append, List.length_append]
  rfl

theorem width_replicate (n : Nat) : width (List.replicate n ' ') = n := by
  induction n with
  | zero => rfl
  | succ n ih =>
    rw [List.replicate_succ, width_cons, ih]
    exact Nat.add_comm 1 n

end Literal

/-! ## Texts that are laid out again -/

open Literal

variable {style : Style} {row : List Char} {s : Script}

/-- The script in a style: with its layout or without. -/
def Style.laid (style : Style) (s : Script) : Script := if style.minify then compact s else s

theorem print_laid_nil (style : Style) : (print (style.laid [])).toList = [] := by
  unfold Style.laid
  split <;> rfl

theorem print_laid_append (hs : Tidy s) (style : Style) (t : Script) :
    (print (style.laid (s ++ t))).toList =
      (print (style.laid s)).toList ++ (print (style.laid t)).toList := by
  rw [toList_print, toList_print, toList_print, ← List.flatMap_append]
  unfold Style.laid
  split
  · rw [compact_append, hs.lines_compact_append, hs.lines_compact]
  · rw [hs.lines_append]

theorem two_mul_indent_le {l : Line} (h : l ∈ lines (ofTextLine row)) :
    2 * l.indent ≤ leadingBlanks row := by
  unfold ofTextLine at h
  cases htrim : row.dropWhile (· == ' ') with
  | nil =>
    rw [htrim, Tidy.blankLine.2, List.mem_singleton] at h
    subst h
    exact Nat.zero_le _
  | cons c cs =>
    rw [htrim] at h
    have hlevel : l.indent = leadingBlanks row / 2 := by
      simp only at h
      split at h <;>
      · simp only [lines, linesFrom, Item.endsLine, Item.writeOn, Content.text] at h
        simp at h
        rw [h]
    omega

theorem width_eq_add_trimRow (row : List Char) :
    width row = leadingBlanks row + width (trimRow row) := by
  have hblanks : row.takeWhile (· == ' ') = List.replicate (leadingBlanks row) ' ' :=
    List.eq_replicate_iff.2 ⟨rfl, fun c hc => by simpa using List.mem_takeWhile_imp hc⟩
  calc width row = width (row.takeWhile (· == ' ') ++ trimRow row) := by
        rw [trimRow, List.takeWhile_append_dropWhile]
    _ = leadingBlanks row + width (trimRow row) := by
        rw [width_append, hblanks, width_replicate]

/-- A row is not written wider than it is. -/
theorem width_print_ofTextLine (h : '\n' ∉ row) (style : Style) :
    width (print (style.laid (ofTextLine row))).toList ≤ width row + 1 := by
  obtain ⟨htidy, level, hlines⟩ := Tidy.ofTextLine h
  have hlevel : 2 * level ≤ leadingBlanks row :=
    two_mul_indent_le (hlines ▸ List.mem_singleton_self _)
  have hrow := width_eq_add_trimRow row
  have hfeed : width ['\n'] = 1 := by decide
  rw [toList_print]
  unfold Style.laid
  split
  · rw [htidy.lines_compact, hlines]
    cases hcode : Line.isCode ⟨level, none, String.ofList (trimRow row)⟩ with
    | true =>
      rw [List.filter_cons_of_pos hcode]
      simp only [List.filter_nil, List.map_cons, List.map_nil, List.flatMap_cons, List.flatMap_nil,
        List.append_nil, Line.row, Line.flush, Nat.mul_zero, List.replicate_zero, List.nil_append,
        String.toList_ofList, width_append, hfeed]
      omega
    | false =>
      rw [List.filter_cons_of_neg (by simp [hcode])]
      exact Nat.zero_le _
  · rw [hlines]
    simp only [List.flatMap_cons, List.flatMap_nil, List.append_nil, Line.row, String.toList_ofList,
      width_append, width_replicate, hfeed]
    omega

/-- A row of code that starts without blanks is written as it is. -/
theorem print_ofTextLine (h : '\n' ∉ row) (htrim : trimRow row = row) (hcode : isCodeRow row = true)
    (style : Style) : (print (style.laid (ofTextLine row))).toList = row ++ ['\n'] := by
  obtain ⟨htidy, level, hlines⟩ := Tidy.ofTextLine h
  have hlevel : 2 * level ≤ leadingBlanks row :=
    two_mul_indent_le (hlines ▸ List.mem_singleton_self _)
  have hrow := width_eq_add_trimRow row
  rw [htrim] at hrow hlines
  obtain rfl : level = 0 := by omega
  have hline : Line.isCode ⟨0, none, String.ofList row⟩ = true := by
    rwa [Line.isCode, String.toList_ofList]
  rw [toList_print]
  unfold Style.laid
  split
  · rw [htidy.lines_compact, hlines, List.filter_cons_of_pos hline]
    simp [Line.row, Line.flush]
  · rw [hlines]
    simp [Line.row]

theorem width_print_rows {rows : List (List Char)} (h : ∀ row ∈ rows, '\n' ∉ row)
    (first : List Char) (style : Style) :
    width first + width (print (style.laid (rows.flatMap ofTextLine))).toList ≤
      width (List.intercalate ['\n'] (first :: rows)) := by
  induction rows generalizing first with
  | nil =>
    rw [List.flatMap_nil, print_laid_nil, List.intercalate_singleton]
    exact Nat.le_refl _
  | cons row rows ih =>
    obtain ⟨hrow, hrows⟩ := List.forall_mem_cons.1 h
    have hrest := ih hrows row
    have hfirst := width_print_ofTextLine hrow style
    rw [List.flatMap_cons, print_laid_append (Tidy.ofTextLine hrow).1, List.intercalate_cons_cons,
      width_append, width_append, width_append]
    have hfeed : width ['\n'] = 1 := by decide
    omega

theorem ofText_lineFeed (row : String) :
    ofText (row ++ "\n") = (row.toList.splitOn '\n').flatMap ofTextLine := by
  have htext : (row ++ "\n").toList = row.toList ++ ['\n'] := by simp
  rw [ofText, htext]
  simp only [List.getLast?_append, List.getLast?_singleton, Option.some_or, if_true,
    List.dropLast_concat]

theorem ofText_append {text : String} (htext : text ≠ "") (row : String) :
    ofText (row ++ "\n" ++ text) = ofText (row ++ "\n") ++ ofText text := by
  have hne : text.toList ≠ [] := by simpa using htext
  have hsplit : (row ++ "\n" ++ text).toList = row.toList ++ '\n' :: text.toList := by simp
  rw [ofText_lineFeed, ofText, ofText, hsplit]
  have hlast : (row.toList ++ '\n' :: text.toList).getLast? = text.toList.getLast? := by
    rw [List.getLast?_append_of_ne_nil _ (List.cons_ne_nil _ _), List.getLast?_cons_of_ne_nil hne]
  simp only [hlast]
  split
  · rw [List.dropLast_append_of_ne_nil (List.cons_ne_nil _ _), List.dropLast_cons_of_ne_nil hne,
      List.splitOn_append_cons_self, List.flatMap_append]
  · rw [List.splitOn_append_cons_self, List.flatMap_append]

theorem splitOn_append_of_not_mem {before : List Char} (h : '\n' ∉ before) {cs first : List Char}
    {rest : List (List Char)} (hcs : cs.splitOn '\n' = first :: rest) :
    (before ++ cs).splitOn '\n' = (before ++ first) :: rest := by
  induction before with
  | nil => exact hcs
  | cons c before ih =>
    rw [List.mem_cons, not_or] at h
    rw [List.cons_append, List.splitOn_cons_eq_if_modifyHead, if_neg (by simpa using Ne.symm h.1),
      ih h.2]
    rfl

/-! ## The literal that names the canvas -/

/-- What stands before the literal that names the canvas on its row. -/
def opening : String := "const canvas = document.getElementById(\""

/-- The literal that names the canvas in the text of a script starts behind the opening, and the rest
of the script is what the prelude goes on with behind the lookup. -/
structure LooksUp (style : Style) (p : Program) (literal : List Char) (rest : Script) : Prop where
  script : p.fullScript style.canvasId style.fps =
    ofText (heading ++ "\n") ++ (ofText (lookupRow style.canvasId ++ "\n") ++ rest)
  text : (generate style p).toList =
    (print (style.laid (ofText (heading ++ "\n")))).toList ++ (opening.toList ++ literal)

theorem toList_lookupRow (id : String) :
    (lookupRow id).toList = opening.toList ++ (escape id.toList ++ ['"', ')', ';']) := by
  have hopening : opening = "const canvas = " ++ "document.getElementById(\"" := by decide
  have hclose : "\")".toList = ['"', ')'] := by decide
  have hend : ";".toList = [';'] := by decide
  have hid : (escapeQuotes id).toList = escape id.toList := by
    rw [escapeQuotes, String.toList_ofList]
    rfl
  unfold lookupRow lookup
  simp only [hopening, String.toList_append, hid, hclose, hend, List.append_assoc]
  rfl

/-- Nothing of a bare id and of what closes the lookup ends the row. -/
theorem lineFeed_not_mem_of_escaped {ends : LineEnds} {used : List Char} (h : Escaped ends used) :
    '\n' ∉ used ++ ['"', ')', ';'] := by
  obtain ⟨cs, rfl, hcs⟩ := h
  rw [List.mem_append]
  rintro (hmem | hmem)
  · have hcount := List.count_pos_iff.2 hmem
    rw [count_escape, if_neg (by decide)] at hcount
    have hend := (hcs _ (List.count_pos_iff.1 hcount)).2
    rw [ends.lineFeed] at hend
    cases hend
  · exact absurd hmem (by decide)

/-- The rows that the escaped id and what closes the lookup are written as, with whatever follows
them: the literal denotes the id and is closed behind it just if the id is bare. -/
theorem read_rows_iff {cs first : List Char} {rows : List (List Char)}
    (hrows : (escape cs ++ ['"', ')', ';']).splitOn '\n' = first :: rows) (ends : LineEnds)
    (style : Style) (tail : List Char) :
    read ends.isEnd .text
        (first ++ '\n' :: (print (style.laid (rows.flatMap ofTextLine))).toList ++ tail) =
      some (units cs, [')', ';', '\n'] ++ tail) ↔ Bare ends cs := by
  have hclose : width ['"', ')', ';'] = 3 := by decide
  have hbreaks := not_mem_of_mem_splitOn '\n' (escape cs ++ ['"', ')', ';'])
  have hbody : List.intercalate ['\n'] (first :: rows) = escape cs ++ ['"', ')', ';'] := by
    rw [← hrows, List.intercalate_splitOn]
  rw [hrows] at hbreaks
  obtain ⟨hfirst, hbreaks⟩ := List.forall_mem_cons.1 hbreaks
  constructor
  · intro h
    obtain ⟨used, hused, -⟩ := bounded h
    have hwritten : first ++ '\n' :: (print (style.laid (rows.flatMap ofTextLine))).toList =
        used ++ ['"', ')', ';'] ++ ['\n'] := by
      refine List.append_cancel_right (hused.trans ?_)
      simp
    -- the literal is no wider than the id, so that all of it is the escaped id
    have hwidth : width used ≤ width (escape cs) := by
      have hle := width_print_rows hbreaks first style
      have heq := congrArg width hwritten
      have hfeed : width ['\n'] = 1 := by decide
      have hone : (unitsOf '\n'.toNat).length = 1 := by decide
      rw [hbody, width_append, hclose] at hle
      rw [width_append, width_cons, width_append, width_append, hclose, hfeed, hone] at heq
      omega
    rw [hused] at h
    obtain ⟨hescaped, hsame⟩ := escaped_of_read h hwidth
    have hrow : first = used ++ ['"', ')', ';'] := by
      have hsplit := congrArg (List.splitOn '\n') hwritten
      rw [List.splitOn_append_cons_self_of_not_mem hfirst,
        List.splitOn_append_cons_self_of_not_mem (lineFeed_not_mem_of_escaped hescaped)] at hsplit
      exact (List.cons.inj hsplit).1
    cases rows with
    | nil =>
      rw [List.intercalate_singleton, hrow] at hbody
      exact bare_of_escaped (List.append_cancel_right hbody ▸ hescaped)
    | cons row rows =>
      have hmore := congrArg width hbody
      rw [List.intercalate_cons_cons, hrow, width_append, width_append, width_append, width_append,
        hclose, show width ['\n'] = 1 by decide] at hmore
      omega
  · intro h
    have hone := splitOn_append_of_not_mem (lineFeed_not_mem_of_escaped ⟨cs, rfl, h⟩)
      (List.splitOn_nil '\n')
    rw [List.append_nil, hrows] at hone
    obtain ⟨rfl, rfl⟩ := List.cons.inj hone
    rw [List.flatMap_nil, print_laid_nil]
    have hread := read_escape h ([')', ';', '\n'] ++ tail)
    simpa using hread

theorem print_lookup (id : String) (style : Style) :
    ∃ first rows, (escape id.toList ++ ['"', ')', ';']).splitOn '\n' = first :: rows ∧
      (print (style.laid (ofText (lookupRow id ++ "\n")))).toList =
        opening.toList ++
          (first ++ '\n' :: (print (style.laid (rows.flatMap ofTextLine))).toList) := by
  obtain ⟨first, rows, hrows⟩ : ∃ first rows,
      (escape id.toList ++ ['"', ')', ';']).splitOn '\n' = first :: rows :=
    List.exists_cons_of_ne_nil (List.splitOn_ne_nil _ _)
  refine ⟨first, rows, hrows, ?_⟩
  have hfirst : '\n' ∉ first := not_mem_of_mem_splitOn '\n' _ _ (hrows ▸ List.mem_cons_self)
  have hopening : '\n' ∉ opening.toList := lineFeed_not_mem_ofList (by decide)
  have hrow : '\n' ∉ opening.toList ++ first := by
    rw [List.mem_append]
    exact fun h => h.elim hopening hfirst
  have hstart : opening.toList = 'c' :: "onst canvas = document.getElementById(\"".toList := by decide
  rw [ofText_lineFeed, toList_lookupRow, splitOn_append_of_not_mem hopening hrows, List.flatMap_cons,
    print_laid_append (Tidy.ofTextLine hrow).1, print_ofTextLine hrow]
  · simp
  · rw [hstart]
    rfl
  · rw [hstart]
    rfl

/-- The text of every script has a literal that names the canvas. A browser reads it as the id of the
canvas, up to the quote that closes it behind the id, just if the id has no backslash and no end of a
line in it. -/
theorem exists_looksUp (style : Style) (p : Program) :
    ∃ literal rest, LooksUp style p literal rest ∧ ∀ ends : LineEnds,
      read ends.isEnd .text literal =
        some (units style.canvasId.toList, [')', ';', '\n'] ++ (print (style.laid rest)).toList) ↔
      Bare ends style.canvasId.toList := by
  obtain ⟨text, htext, hprelude⟩ := exists_behind_lookup style.canvasId (tick style.fps)
  obtain ⟨rest, hrest⟩ : ∃ rest, p.fullScript style.canvasId style.fps =
      prelude style.canvasId style.fps ++ rest :=
    ⟨_, by simp only [Program.fullScript, List.append_assoc]; rfl⟩
  have hscript : p.fullScript style.canvasId style.fps = ofText (heading ++ "\n") ++
      (ofText (lookupRow style.canvasId ++ "\n") ++ (ofText text ++ rest)) := by
    have hne : lookupRow style.canvasId ++ "\n" ++ text ≠ "" := by
      rw [ne_eq, String.append_eq_empty_iff]
      exact fun h => htext h.2
    rw [hrest, prelude, hprelude, ofText_append hne, ofText_append htext, List.append_assoc,
      List.append_assoc]
  obtain ⟨first, rows, hrows, hprint⟩ := print_lookup style.canvasId style
  refine ⟨_, _, ⟨hscript, ?_⟩, fun ends => read_rows_iff hrows ends style _⟩
  have hlaid : p.script style = style.laid (p.fullScript style.canvasId style.fps) := rfl
  rw [generate, hlaid, hscript, print_laid_append (Tidy.ofText _), print_laid_append (Tidy.ofText _),
    hprint]
  simp

end Easel.Script
