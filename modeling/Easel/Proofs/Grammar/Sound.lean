import Easel.Proofs.Grammar.Basic
import Easel.Proofs.Parser.Rest

/-!
# Parsers keep to the grammar

A parser is sound for a rule of the grammar if the words it takes spell the value it gives, wherever
it reports no fault (`Sound`).  The rules for single steps and for sequences come first; each parser
of expressions is then sound for its rule (`sound_expressionWithin`).
-/

namespace Easel

namespace Grammar

open Easel.Parser

/-! ## Words and tokens -/

theorem exists_wordsFrom (fresh : Bool) (ts : List Token) :
    ∃ fresh', wordsFrom fresh ts = wordsFrom fresh' (significant ts) := by
  induction ts generalizing fresh with
  | nil => exact ⟨fresh, rfl⟩
  | cons t ts ih =>
    by_cases h : t.kind = .newline
    · obtain ⟨fresh', hwords⟩ := ih true
      refine ⟨fresh', ?_⟩
      rw [wordsFrom, if_pos h, hwords]
      simp [significant, h]
    · exact ⟨fresh, by rw [significant_cons_of_ne h]⟩

/-- The next token is the first word. -/
theorem exists_wordsFrom_eq_cons {ts : List Token} (h : (peek ts).kind ≠ .eof) (fresh : Bool) :
    ∃ fresh', wordsFrom fresh ts = ⟨peek ts, fresh'⟩ :: words (afterNext ts) := by
  obtain ⟨fresh', hwords⟩ := exists_wordsFrom fresh ts
  refine ⟨fresh', hwords.trans ?_⟩
  cases hs : significant ts with
  | nil =>
    rw [peek, hs] at h
    exact absurd rfl h
  | cons t rest =>
    rw [peek_eq_of_significant hs] at h ⊢
    rw [afterNext_of_significant hs h, wordsFrom, if_neg (ne_newline_of_significant hs)]
    rfl

/-- A token on the same line is the first word. -/
theorem words_eq_cons {ts : List Token} (hline : (ts.headD .beyond).kind ≠ .newline)
    (hend : (ts.headD .beyond).kind ≠ .eof) :
    words ts = ⟨ts.headD .beyond, false⟩ :: words (afterNext ts) := by
  cases ts with
  | nil => exact absurd rfl hend
  | cons t ts =>
    have hkind : t.kind ≠ .newline := hline
    rw [afterNext_of_significant (significant_cons_of_ne hkind ts) hend, words, wordsFrom,
      if_neg hkind]
    rfl

theorem joined_of_words {ts : List Token} (hline : (ts.headD .beyond).kind ≠ .newline)
    {us vs : List Word} (h : words ts = us ++ vs) : Joined us := by
  cases us with
  | nil => rintro _ ⟨⟩
  | cons w us =>
    cases ts with
    | nil => cases h
    | cons t ts =>
      have hkind : t.kind ≠ .newline := hline
      rw [words, wordsFrom, if_neg hkind] at h
      rintro _ ⟨⟩
      rw [← (List.cons.inj h).1]
      rfl

end Grammar

namespace Parser

open Grammar

variable {α β : Type}

/-- Where the parser reads a value from the tokens and reports no fault, the words that it takes
spell the value, and none of them is the end of the text.  The tokens may follow a line end. -/
def SoundAt (fresh : Bool) (ts : List Token) (R : Rule α) (p : Parser α) : Prop :=
  ∀ a, (p ts).result = .ok a → (p ts).reported = [] →
    ∃ ws, wordsFrom fresh ts = ws ++ words (p ts).rest ∧ (∀ w ∈ ws, ¬ w.Is .eof) ∧ R ws a

/-- The parser is sound for the rule on all tokens. -/
def Sound (fresh : Bool) (R : Rule α) (p : Parser α) : Prop := ∀ ts, SoundAt fresh ts R p

theorem spells_of_isWord {word : String} {w : Word} (h : isWord word w.token = true) :
    w.Spells word := by
  unfold isWord at h
  rwa [Bool.and_eq_true, beq_iff_eq, beq_iff_eq] at h

namespace SoundAt

variable {fresh : Bool} {ts : List Token} {R : Rule α} {S : Rule β}

theorem pure {a : α} (h : R [] a) : SoundAt false ts R (Pure.pure a) := by
  intro b hb _
  cases hb
  exact ⟨[], rfl, List.forall_mem_nil _, h⟩

theorem failAt (t : Token) (problem : Problem) : SoundAt fresh ts R (failAt t problem) := by
  intro b hb _
  cases hb

theorem exhausted : SoundAt fresh ts R exhausted := by
  intro b hb _
  cases hb

theorem imp {R' : Rule α} {p : Parser α} (h : SoundAt fresh ts R p)
    (hR : ∀ ws a, R ws a → R' ws a) : SoundAt fresh ts R' p := by
  intro a ha hr
  obtain ⟨ws, hws, hends, hRws⟩ := h a ha hr
  exact ⟨ws, hws, hends, hR ws a hRws⟩

theorem bind {p : Parser α} {f : α → Parser β} (hp : SoundAt fresh ts R p)
    (hf : ∀ us a, R us a → Sound false (fun vs => S (us ++ vs)) (f a)) :
    SoundAt fresh ts S (p >>= f) := by
  intro b hb hr
  obtain ⟨a, ha⟩ := exists_ok_of_bind hb
  rw [bind_of_ok ha] at hb hr ⊢
  obtain ⟨hrp, hrf⟩ := List.append_eq_nil_iff.1 hr
  obtain ⟨us, hus, hends, hR⟩ := hp a ha hrp
  obtain ⟨vs, hvs, hends', hS⟩ := hf us a hR _ b hb hrf
  refine ⟨us ++ vs, ?_, List.forall_mem_append.2 ⟨hends, hends'⟩, hS⟩
  rw [hus, List.append_assoc]
  exact congrArg (us ++ ·) hvs

theorem last {p : Parser α} {g : α → β} (hp : SoundAt fresh ts R p)
    (h : ∀ ws a, R ws a → S ws (g a)) : SoundAt fresh ts S (p >>= fun a => Pure.pure (g a)) := by
  refine hp.bind fun us a hR _ => .pure ?_
  rw [List.append_nil]
  exact h us a hR

theorem look {f : Token → Parser β} (h : ∀ t, t = peek ts → SoundAt fresh ts S (f t)) :
    SoundAt fresh ts S (look >>= f) := h _ rfl

theorem lookHere {f : Token → Parser β}
    (h : ∀ t, t = ts.headD .beyond → SoundAt fresh ts S (f t)) :
    SoundAt fresh ts S (lookHere >>= f) := h _ rfl

theorem ite {c : Prop} [Decidable c] {p q : Parser α} (hp : c → SoundAt fresh ts R p)
    (hq : ¬c → SoundAt fresh ts R q) : SoundAt fresh ts R (if c then p else q) := by
  by_cases hc : c
  · rw [if_pos hc]
    exact hp hc
  · rw [if_neg hc]
    exact hq hc

/-- A parser that takes the next token takes a word. -/
theorem take {p : Parser α} {a : α} (hrun : p ts = ⟨.ok a, [], afterNext ts⟩)
    (hend : (peek ts).kind ≠ .eof) :
    SoundAt fresh ts (fun ws b => b = a ∧ ∃ fresh', ws = [⟨peek ts, fresh'⟩]) p := by
  obtain ⟨fresh', hwords⟩ := exists_wordsFrom_eq_cons hend fresh
  have hword : ¬ Word.Is .eof ⟨peek ts, fresh'⟩ := hend
  unfold SoundAt
  rw [hrun]
  rintro _ ⟨⟩ -
  exact ⟨_, hwords, List.forall_mem_singleton.2 hword, rfl, fresh', rfl⟩

theorem afterToken {f : Unit → Parser β} {t : Token} (ht : t = peek ts) {kind : Token.Kind}
    (hk : t.kind = kind) (hend : kind ≠ .eof)
    (hf : ∀ fresh', Sound false (fun vs => S (⟨t, fresh'⟩ :: vs)) (f ())) :
    SoundAt fresh ts S (discard afterNext >>= f) := by
  subst ht hk
  refine (take rfl hend).bind ?_
  rintro _ _ ⟨-, fresh', rfl⟩
  exact hf fresh'

/-- A token on the same line is taken. -/
theorem afterHere {f : Unit → Parser β} {t : Token} (ht : t = ts.headD .beyond)
    {kind : Token.Kind} (hk : t.kind = kind) (hline : kind ≠ .newline) (hend : kind ≠ .eof)
    (hf : Sound false (fun vs => S (⟨t, false⟩ :: vs)) (f ())) :
    SoundAt false ts S (discard afterNext >>= f) := by
  subst ht hk
  have hwords := words_eq_cons hline hend
  intro b hb hr
  obtain ⟨vs, hvs, hends, hS⟩ := hf _ b hb hr
  refine ⟨⟨ts.headD .beyond, false⟩ :: vs, ?_, List.forall_mem_cons.2 ⟨hend, hends⟩, hS⟩
  rw [show wordsFrom false ts = _ from hwords]
  exact congrArg (_ :: ·) hvs

/-- A token of a kind is taken. -/
theorem expect {kind : Token.Kind} (hend : kind ≠ .eof) {expected : String}
    {f : Token → Parser β}
    (hf : ∀ w : Word, w.Is kind → Sound false (fun vs => S (w :: vs)) (f w.token)) :
    SoundAt fresh ts S (expect kind expected >>= f) := by
  have hone : SoundAt fresh ts (fun ws t => ∃ w : Word, ws = [w] ∧ w.token = t ∧ w.Is kind)
      (Parser.expect kind expected) := by
    apply look
    intro t ht
    apply ite
    · rintro rfl
      subst ht
      refine (take rfl hend).imp ?_
      rintro _ _ ⟨rfl, fresh', rfl⟩
      exact ⟨_, rfl, rfl, rfl⟩
    · intro _
      apply failAt
  refine hone.bind ?_
  rintro _ _ ⟨w, rfl, rfl, hw⟩
  exact hf w hw

/-- A given word that is not reserved is taken. -/
theorem expectWord {word expected : String} {f : Unit → Parser β}
    (hf : ∀ w : Word, w.Spells word → Sound false (fun vs => S (w :: vs)) (f ())) :
    SoundAt fresh ts S (expectWord word expected >>= f) := by
  have hone : SoundAt fresh ts (fun ws _ => ∃ w : Word, ws = [w] ∧ w.Spells word)
      (Parser.expectWord word expected) := by
    apply look
    intro t ht
    apply ite
    · intro hspelt
      subst ht
      have hend : (peek ts).kind ≠ .eof := by
        rw [kind_of_isWord hspelt]
        decide
      refine (take rfl hend).imp ?_
      rintro _ _ ⟨-, fresh', rfl⟩
      exact ⟨_, rfl, spells_of_isWord hspelt⟩
    · intro _
      apply failAt
  refine hone.bind ?_
  rintro _ _ ⟨w, rfl, hw⟩
  exact hf w hw

/-- An optional token may be taken. -/
theorem skipOptional {kind : Token.Kind} (hend : kind ≠ .eof) {f : Unit → Parser β}
    (hnone : Sound false S (f ()))
    (hsome : ∀ w : Word, w.Is kind → Sound false (fun vs => S (w :: vs)) (f ())) :
    SoundAt false ts S (skipOptional kind >>= f) := by
  have hone : SoundAt false ts (fun ws _ => ws = [] ∨ ∃ w : Word, ws = [w] ∧ w.Is kind)
      (Parser.skipOptional kind) := by
    apply look
    intro t ht
    apply ite
    · rintro rfl
      subst ht
      refine (take rfl hend).imp ?_
      rintro _ _ ⟨-, fresh', rfl⟩
      exact .inr ⟨_, rfl, rfl⟩
    · intro _
      exact pure (.inl rfl)
  refine hone.bind ?_
  rintro _ _ (rfl | ⟨w, rfl, hw⟩)
  · exact hnone
  · exact hsome w hw

/-- What is read on the same line starts there. -/
theorem joined {p : Parser α} (hline : (ts.headD .beyond).kind ≠ .newline)
    (h : SoundAt false ts R p) : SoundAt false ts (fun ws a => Joined ws ∧ R ws a) p := by
  intro a ha hr
  obtain ⟨ws, hws, hends, hR⟩ := h a ha hr
  exact ⟨ws, hws, hends, joined_of_words hline hws, hR⟩

theorem report (fault : Fault) (f : Unit → Parser β) :
    SoundAt fresh ts S (report fault >>= f) := by
  intro b _ hr
  rw [report_bind] at hr
  cases hr

theorem skipLineEnds {f : Unit → Parser β}
    (h : ∀ fresh', SoundAt fresh' (significant ts) S (f ())) :
    SoundAt fresh ts S (skipLineEnds >>= f) := by
  intro b hb hr
  obtain ⟨fresh', hwords⟩ := exists_wordsFrom fresh ts
  rw [hwords]
  exact h fresh' b hb hr

/-- A fault that is handed over as a value is reported. -/
theorem bindAttempt {p : Parser α} {f : Except Fault α → Parser β} (hp : SoundAt fresh ts R p)
    (hok : ∀ us a, R us a → Sound false (fun vs => S (us ++ vs)) (f (.ok a)))
    (herror : ∀ fault ts, (f (.error fault) ts).reported ≠ []) :
    SoundAt fresh ts S (attempt p >>= f) := by
  intro b hb hr
  rw [attempt_bind] at hb hr ⊢
  obtain ⟨hrp, hrf⟩ := List.append_eq_nil_iff.1 hr
  cases ha : (p ts).result with
  | error fault =>
    rw [ha] at hrf
    exact absurd hrf (herror fault _)
  | ok a =>
    rw [ha] at hb hrf
    obtain ⟨us, hus, hends, hR⟩ := hp a ha hrp
    obtain ⟨vs, hvs, hends', hS⟩ := hok us a hR _ b hb hrf
    refine ⟨us ++ vs, ?_, List.forall_mem_append.2 ⟨hends, hends'⟩, hS⟩
    rw [hus, List.append_assoc]
    exact congrArg (us ++ ·) hvs

end SoundAt

/-! ## Lists -/

theorem sound_name (fresh : Bool) (expected : String) : Sound fresh Name (name expected) :=
  fun _ => .expect (by decide) fun _ hw _ => .pure (.mk hw)

section Items

variable {R : Rule α} {item : Parser α} (h : ∀ fresh, Sound fresh R item)
include h

/-- The words of more items continue any list that starts with one item. -/
theorem sound_moreItems (n : Nat) :
    Sound false (fun ws as => ∀ us a, R us a → Separated R (us ++ ws) (a :: as))
      (moreItems item n) := by
  induction n with
  | zero => exact fun _ => .exhausted
  | succ n ih =>
    intro ts
    apply SoundAt.look
    intro t ht
    apply SoundAt.ite
    · intro hk
      refine .afterToken ht hk (by decide) fun _ _ => .bind (h false _) fun vs b hb _ =>
        .last (ih _) fun ws as has us a ha => ?_
      exact .more ha hk (has vs b hb)
    · intro _
      refine .pure fun us a ha => ?_
      rw [List.append_nil]
      exact .one ha

theorem sound_items (fresh : Bool) (n : Nat) : Sound fresh (Separated R) (items n item) :=
  fun _ => .bind (h fresh _) fun us a ha _ => .last (sound_moreItems h n _) fun _ _ has =>
    has us a ha

theorem sound_itemsUntil (n : Nat) {close : Token.Kind} (hend : close ≠ .eof) (expected : String) :
    Sound false (fun ws as => ∃ vs c, ws = vs ++ [c] ∧ Listed R vs as ∧ c.Is close)
      (itemsUntil n item close expected) := by
  intro ts
  have hlist : SoundAt false ts (Listed R)
      (do if (← look).kind = close then pure [] else items n item) := by
    apply SoundAt.look
    intro t _
    exact .ite (fun _ => .pure .none) fun _ => (sound_items h false n _).imp fun _ _ => .some
  exact hlist.bind fun vs as has _ => .expect hend fun c hc _ => .pure ⟨vs, c, rfl, has, hc⟩

end Items

/-! ## Primaries -/

section Expressions

variable {E : Rule Expr} {expr : Parser Expr} (h : ∀ fresh, Sound fresh E expr) (n : Nat)

theorem primary_of_leaf? {t : Token} {e : Expr} (he : leaf? t = some e) (fresh : Bool) :
    Primary E [⟨t, fresh⟩] e := by
  unfold leaf? at he
  split at he <;> cases he
  case h_1 hk => exact .string hk
  case h_2 hk => exact .color hk
  case h_3 hk => exact .true hk
  case h_4 hk => exact .false hk
  case h_5 hk => exact .null hk
  case h_6 hk => exact .ident hk

theorem ne_eof_of_leaf? {t : Token} {e : Expr} (he : leaf? t = some e) : t.kind ≠ .eof := by
  intro hk
  unfold leaf? at he
  rw [hk] at he
  cases he

include h

theorem sound_property (fresh : Bool) : Sound fresh (Property E) (property expr) :=
  fun _ => .expect (by decide) fun _ hkey _ => .expect (by decide) fun _ hcolon _ =>
    .last (h false _) fun _ _ he => .mk hkey hcolon he

theorem sound_primary (fresh : Bool) : Sound fresh (Primary E) (primary n expr) := by
  intro ts
  apply SoundAt.look
  intro t ht
  split
  · next hk =>
    refine .afterToken ht hk (by decide) fun fresh' _ => ?_
    unfold numberLiteral
    split
    · next v hv => exact .pure (.number hk hv)
    · exact .failAt _ _
  · next hk =>
    refine .afterToken ht hk (by decide) fun _ _ =>
      .last (sound_itemsUntil h n (by decide) _ _) ?_
    rintro _ es ⟨ws, c, rfl, hes, hc⟩
    exact .array hk hes hc
  · next hk =>
    refine .afterToken ht hk (by decide) fun _ _ =>
      .last (sound_itemsUntil (sound_property h) n (by decide) _ _) ?_
    rintro _ ps ⟨ws, c, rfl, hps, hc⟩
    exact .object hk hps hc
  · next hk =>
    exact .afterToken ht hk (by decide) fun _ _ => .bind (h false _) fun _ _ he _ =>
      .expect (by decide) fun _ hc _ => .pure (.parens hk he hc)
  · split
    · next e he =>
      exact .afterToken ht rfl (ne_eof_of_leaf? he) fun fresh' _ =>
        .pure (primary_of_leaf? he fresh')
    · exact .failAt _ _

/-! ## Shapes -/

theorem sound_point (opening closing : String) :
    Sound false (Point E) (point expr opening closing) :=
  fun _ => .expect (by decide) fun _ ho _ => .bind (h false _) fun _ _ hx _ =>
    .expect (by decide) fun _ hcomma _ => .bind (h false _) fun _ _ hy _ =>
      .expect (by decide) fun _ hc _ => .pure (.mk ho hx hcomma hy hc)

theorem sound_place (kind : ShapeKind) : Sound false (Place E) (place expr kind) :=
  fun _ => .expectWord fun _ hw _ => (sound_point h _ _ _).imp fun _ _ hq => .mk hw hq

theorem sound_field (word : String) : Sound false (Field E word) (field expr word) :=
  fun _ => .expectWord fun _ hw _ => (h false _).imp fun _ _ he => .mk hw he

theorem sound_rotation : Sound false (Rotation E) (rotation expr) := by
  intro ts
  apply SoundAt.lookHere
  intro t ht
  apply SoundAt.ite
  · intro hk
    exact .afterHere ht hk (by decide) (by decide) fun _ => .last (h false _) fun _ _ he =>
      .some hk rfl he
  · intro _
    exact .pure .none

/-- An optional field, as it is read before its expression is looked at. -/
theorem sound_optionalField (word : String) :
    Sound false (fun ws o => ws = [] ∧ o = none ∨ ∃ w us e, ws = w :: us ∧ o = some e ∧
      w.Spells word ∧ w.Joins ∧ E us e) (optionalField expr word) := by
  intro ts
  apply SoundAt.lookHere
  intro t ht
  apply SoundAt.ite
  · intro hword
    refine .afterHere ht (kind_of_isWord hword) (by decide) (by decide) fun _ =>
      .last (h false _) fun us e he => .inr ⟨⟨t, false⟩, us, e, rfl, rfl, ?_, rfl, he⟩
    exact spells_of_isWord hword
  · intro _
    exact .pure (.inl ⟨rfl, rfl⟩)

omit h in
theorem sound_textContent : Sound false TextContent (textContent n expr) := by
  intro ts
  apply SoundAt.look
  intro t ht
  apply SoundAt.ite
  · intro hk
    unfold primary
    apply SoundAt.look
    intro t' ht'
    obtain rfl : t = t' := ht.trans ht'.symm
    rcases hk with hk | hk
    · simp only [hk, leaf?]
      exact .afterToken ht hk (by decide) fun _ _ => .pure (.string hk)
    · simp only [hk, leaf?]
      exact .afterToken ht hk (by decide) fun _ _ => .pure (.ident hk)
  · intro _
    exact .failAt _ _

theorem sound_size : Sound false (Size E) (optionalField expr "size") := by
  refine fun _ => (sound_optionalField h "size" _).imp ?_
  rintro _ _ (⟨rfl, rfl⟩ | ⟨w, us, e, rfl, rfl, hw, hline, he⟩)
  · exact .none
  · exact .some hw hline he

theorem sound_font :
    Sound false (fun ws o => Font E ws (fontOf o)) (optionalField expr "font") := by
  refine fun _ => (sound_optionalField h "font" _).imp ?_
  rintro _ _ (⟨rfl, rfl⟩ | ⟨w, us, e, rfl, rfl, hw, hline, he⟩)
  · exact .none
  · by_cases hstring : ∃ p s, e = .string p s
    · obtain ⟨p, s, rfl⟩ := hstring
      exact .string hw hline he
    · have hfont : fontOf (some e) = none := by
        unfold fontOf
        split
        · next p s heq => exact absurd ⟨p, s, Option.some.inj heq⟩ hstring
        · rfl
      rw [hfont]
      exact .other hw hline he fun p s heq => hstring ⟨p, s, heq⟩

theorem sound_shapeParts (kind : ShapeKind) :
    Sound false (ShapeForm E kind) (shapeParts n expr kind) := by
  intro ts
  cases kind with
  | circle =>
    exact .bind (sound_place h _ _) fun _ (x, y) hat _ =>
      .bind (sound_field h _ _) fun _ _ hsize _ => .last (sound_field h _ _) fun _ _ hcolor =>
        .circle hat hsize hcolor
  | rect =>
    exact .bind (sound_place h _ _) fun _ (x, y) hat _ =>
      .bind (sound_field h _ _) fun _ _ hwidth _ => .bind (sound_field h _ _) fun _ _ hheight _ =>
      .last (sound_field h _ _) fun _ _ hcolor => .rect hat hwidth hheight hcolor
  | line =>
    exact .bind (sound_point h _ _ _) fun _ (x₁, y₁) hstart _ =>
      .bind (sound_point h _ _ _) fun _ (x₂, y₂) hend _ =>
      .last (sound_field h _ _) fun _ _ hcolor => .line hstart hend hcolor
  | triangle =>
    exact .bind (sound_point h _ _ _) fun _ (x₁, y₁) h₁ _ =>
      .bind (sound_point h _ _ _) fun _ (x₂, y₂) h₂ _ =>
      .bind (sound_point h _ _ _) fun _ (x₃, y₃) h₃ _ =>
      .last (sound_field h _ _) fun _ _ hcolor => .triangle h₁ h₂ h₃ hcolor
  | polygon =>
    exact .bind (sound_place h _ _) fun _ (x, y) hat _ =>
      .bind (sound_field h _ _) fun _ _ hsides _ => .bind (sound_field h _ _) fun _ _ hradius _ =>
      .bind (sound_field h _ _) fun _ _ hcolor _ => .last (sound_rotation h _) fun _ _ hrotation =>
        .polygon hat hsides hradius hcolor hrotation
  | ellipse =>
    exact .bind (sound_place h _ _) fun _ (x, y) hat _ =>
      .bind (h false _) fun _ _ hradiusX _ => .bind (h false _) fun _ _ hradiusY _ =>
      .bind (sound_field h _ _) fun _ _ hcolor _ => .last (sound_rotation h _) fun _ _ hrotation =>
        .ellipse hat hradiusX hradiusY hcolor hrotation
  | arc =>
    exact .bind (sound_place h _ _) fun _ (x, y) hat _ =>
      .bind (sound_field h _ _) fun _ _ hradius _ => .bind (sound_field h _ _) fun _ _ hstart _ =>
      .bind (sound_field h _ _) fun _ _ hend _ => .last (sound_field h _ _) fun _ _ hcolor =>
        .arc hat hradius hstart hend hcolor
  | text =>
    exact .bind (sound_place h _ _) fun _ (x, y) hat _ =>
      .bind (sound_textContent n _) fun _ _ hcontent _ =>
      .bind (sound_field h _ _) fun _ _ hcolor _ => .bind (sound_font h _) fun _ _ hfont _ =>
      .last (sound_size h _) fun _ _ hsize => .text hat hcontent hcolor hfont hsize

/-! ## Operators -/

/-- Words that turn whatever spells one value into words that spell another. -/
def Extends (R : Rule α) (a : α) : Rule α := fun ws b => ∀ us, R us a → R (us ++ ws) b

omit h in
theorem Extends.nil {R : Rule α} (a : α) : Extends R a [] a := by
  intro us ha
  rwa [List.append_nil]

omit h in
theorem Extends.trans {R : Rule α} {a b c : α} {us vs : List Word} (hb : Extends R a us b)
    (hc : Extends R b vs c) : Extends R a (us ++ vs) c := by
  intro ws ha
  rw [← List.append_assoc]
  exact hc _ (hb ws ha)

theorem sound_accesses (k : Nat) (e : Expr) :
    Sound false (Extends (Access E) e) (accesses n expr k e) := by
  induction k generalizing e with
  | zero => exact fun _ => .exhausted
  | succ k ih =>
    intro ts
    apply SoundAt.lookHere
    intro t ht
    split
    · next hk =>
      refine .afterHere ht hk (by decide) (by decide) fun _ =>
        .bind (sound_itemsUntil h n (by decide) _ _) ?_
      rintro _ args ⟨vs, c, rfl, hargs, hc⟩ _
      have hcall : Extends (Access E) e (⟨t, false⟩ :: (vs ++ [c])) (.call e args) :=
        fun us hf => .call hf hk rfl hargs hc
      exact (ih _ _).imp fun _ _ hmore => hcall.trans hmore
    · next hk =>
      refine .afterHere ht hk (by decide) (by decide) fun _ => .bind (sound_name false _ _) ?_
      rintro _ _ ⟨hname⟩ _
      have hmember : Extends (Access E) e [⟨t, false⟩, _] (.member e _) :=
        fun us hobject => .member hobject hk rfl hname
      exact (ih _ _).imp fun _ _ hmore => hmember.trans hmore
    · next hk =>
      refine .afterHere ht hk (by decide) (by decide) fun _ => .bind (h false _) fun vs key hkey _ =>
        .expect (by decide) fun c hc _ => ?_
      have hindex : Extends (Access E) e (⟨t, false⟩ :: (vs ++ [c])) (.index e key) :=
        fun us hobject => .index hobject hk rfl hkey hc
      refine (ih _ _).imp fun ws _ hmore => ?_
      have hall := hindex.trans hmore
      rwa [List.cons_append, List.append_assoc] at hall
    · exact .pure (.nil e)

theorem sound_access (fresh : Bool) : Sound fresh (Access E) (access n expr) := by
  have hfirst : Sound fresh (Access E) (shapeOrPrimary n expr) := by
    intro ts
    apply SoundAt.look
    intro t ht
    split
    · next kind hk =>
      exact .afterToken ht hk (by simp) fun _ _ => .last (sound_shapeParts h n kind _) fun _ _ hs =>
        .shape hk hs
    · exact (sound_primary h n fresh ts).imp fun _ _ => .primary
  exact fun _ => .bind (hfirst _) fun us e he _ => (sound_accesses h n n e _).imp fun _ _ hmore =>
    hmore us he

end Expressions

section Operators

variable {R : Rule Expr} {operand : Parser Expr} (h : ∀ fresh, Sound fresh R operand)
include h

theorem sound_negations (k : Nat) (fresh : Bool) : Sound fresh (Unary R) (negations operand k) := by
  induction k generalizing fresh with
  | zero => exact fun _ => .exhausted
  | succ k ih =>
    intro ts
    apply SoundAt.look
    intro t ht
    apply SoundAt.ite
    · intro hk
      exact .afterToken ht hk (by decide) fun _ _ => .last (ih false _) fun _ _ he => .negate hk he
    · intro _
      exact (h fresh ts).imp fun _ _ => .operand

variable {level : Level} {ops : List BinaryOp} (hops : ∀ op : BinaryOp, op.level = level → op ∈ ops)
include hops

theorem sound_operations (k : Nat) (e : Expr) :
    Sound false (Extends (Chain ops R) e) (operations level operand k e) := by
  induction k generalizing e with
  | zero => exact fun _ => .exhausted
  | succ k ih =>
    intro ts
    apply SoundAt.lookHere
    intro t ht
    split
    · next op hk =>
      apply SoundAt.ite
      · intro hlevel
        refine .afterHere ht hk (by simp) (by simp) fun _ => .bind (h false _) fun vs right hright _ => ?_
        have hbinary : Extends (Chain ops R) e (⟨t, false⟩ :: vs) (.binary t.position op e right) :=
          fun us hleft => .binary hleft hk (hops op hlevel) rfl hright
        exact (ih _ _).imp fun _ _ hmore => hbinary.trans hmore
      · intro _
        exact .pure (.nil e)
    · exact .pure (.nil e)

theorem sound_joined (n : Nat) (fresh : Bool) :
    Sound fresh (Chain ops R) (Parser.joined n level operand) :=
  fun _ => .bind (h fresh _) fun us e he _ => (sound_operations h hops n e _).imp fun _ _ hmore =>
    hmore us (.operand he)

end Operators

theorem mem_comparisons (op : BinaryOp) : op.level = .comparison → op ∈ comparisons := by
  cases op <;> decide

theorem mem_additions (op : BinaryOp) : op.level = .additive → op ∈ additions := by
  cases op <;> decide

theorem mem_multiplications (op : BinaryOp) : op.level = .multiplicative → op ∈ multiplications := by
  cases op <;> decide

theorem sound_assignment {expr : Parser Expr} (h : ∀ fresh, Sound fresh Expression expr) (n : Nat)
    (fresh : Bool) : Sound fresh Expression (assignment n expr) := by
  have hunary := sound_negations (sound_access h n) n
  have hmultiplicative := sound_joined hunary mem_multiplications n
  have hadditive := sound_joined hmultiplicative mem_additions n
  have hcomparison := sound_joined hadditive mem_comparisons n
  refine fun _ => .bind (hcomparison fresh _) fun us target htarget ts => ?_
  apply SoundAt.lookHere
  intro t ht
  apply SoundAt.ite
  · intro hk
    refine .afterHere ht hk (by decide) (by decide) fun _ => .ite (fun _ => ?_) fun _ => .failAt _ _
    exact .last (h false _) fun _ _ hvalue => .assign htarget hk rfl hvalue
  · intro _
    refine .pure ?_
    rw [List.append_nil]
    exact .comparison htarget

theorem sound_expressionWithin (n : Nat) (fresh : Bool) :
    Sound fresh Expression (expressionWithin n) := by
  induction n generalizing fresh with
  | zero => exact fun _ => .exhausted
  | succ n ih => exact sound_assignment ih n fresh

end Parser

end Easel
