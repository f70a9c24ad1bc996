import Easel.Proofs.Grammar.Sound
import Easel.Proofs.Parser.Locality
import Easel.Token.Lexer

/-!
# Programs keep to the grammar

The parsers of commands and statements are sound for their rules as well.  So the tokens of a program
that is read without a fault are derived from the grammar, with the program as the tree of the
derivation (`parse_derives`), where a semicolon may follow a command.
-/

namespace Easel

namespace Parser

open Grammar

/-! ## Commands -/

section Commands

variable {expr : Parser Expr} (h : ∀ fresh, Sound fresh Expression expr) (n : Nat)

theorem sound_direction :
    Sound false (fun ws d => ws = [] ∧ d = .right ∨ ∃ w : Word, ws = [w] ∧ w.Spells d.spelling ∧
      w.Joins) direction := by
  intro ts
  apply SoundAt.lookHere
  intro t ht
  split
  · next d hd =>
    split_ifs at hd with hk
    have hspelling : d.spelling = t.lexeme := by
      simpa using List.find?_some hd
    refine .afterHere ht hk (by decide) (by decide) fun _ => .pure (.inr ⟨⟨t, false⟩, rfl, ?_, rfl⟩)
    exact ⟨hk, hspelling.symm⟩
  · exact .pure (.inl ⟨rfl, rfl⟩)

include h

theorem sound_argument (fresh : Bool) : Sound fresh Argument (argument n expr) :=
  sound_negations (sound_primary h n) n fresh

theorem sound_optionalArgument : Sound false OptionalArgument (optionalArgument n expr) := by
  intro ts
  apply SoundAt.lookHere
  intro t ht
  apply SoundAt.ite
  · intro hstarts
    have hline : (ts.headD .beyond).kind ≠ .newline := by
      rw [← ht]
      intro hk
      rw [hk] at hstarts
      cases hstarts
    exact .last ((sound_argument h n false ts).joined hline) fun _ _ he => .some he.1 he.2
  · intro _
    exact .pure .none

theorem sound_motion (kind : CommandKind) : Sound false (MotionForm kind) (motion n expr kind) := by
  intro ts
  have harg := sound_argument h n false
  have hoption := sound_optionalArgument h n
  cases kind with
  | move =>
    refine .bind (harg _) fun _ amount hamount _ => .last (sound_direction _) ?_
    rintro _ _ (⟨rfl, rfl⟩ | ⟨w, rfl, hw, hline⟩)
    · rw [List.append_nil]
      exact .move hamount
    · exact .moveTo hamount hw hline
  | rotate => exact .last (harg _) fun _ _ => .rotate
  | scale => exact .last (harg _) fun _ _ => .scale
  | fade => exact .last (harg _) fun _ _ => .fade
  | bounce => exact .last (hoption _) fun _ _ => .bounce
  | wave =>
    exact .bind (harg _) fun _ _ hamplitude _ => .last (harg _) fun _ _ hfrequency =>
      .wave hamplitude hfrequency
  | orbit =>
    exact .bind (harg _) fun _ _ hx _ => .bind (harg _) fun _ _ hy _ =>
      .bind (harg _) fun _ _ hradius _ => .last (harg _) fun _ _ hspeed =>
        .orbit hx hy hradius hspeed
  | pulse =>
    exact .bind (harg _) fun _ _ hmin _ => .bind (harg _) fun _ _ hmax _ =>
      .last (hoption _) fun _ _ hspeed => .pulse hmin hmax hspeed
  | wobble =>
    exact .bind (harg _) fun _ _ hamount _ => .last (hoption _) fun _ _ hspeed =>
      .wobble hamount hspeed
  | spring =>
    refine .bind (harg _) fun _ _ hx _ => .bind (harg _) fun _ _ hy _ =>
      .bind (hoption _) fun _ stiffness hstiffness _ => ?_
    cases stiffness with
    | none =>
      exact .last (R := fun ws o => o = none ∧ OptionalArgument ws o) (.pure ⟨rfl, .none⟩)
        fun _ _ hdamping => .spring hx hy hstiffness hdamping.2 fun _ => hdamping.1
    | some stiffness =>
      exact .last (hoption _) fun _ _ hdamping => .spring hx hy hstiffness hdamping nofun

theorem sound_commands (k : Nat) : Sound false (Commands true) (commands n expr k) := by
  induction k with
  | zero => exact fun _ => .pure .nil
  | succ k ih =>
    intro ts
    apply SoundAt.look
    intro t ht
    split
    · exact .pure .nil
    · exact .pure .nil
    · next kind hk =>
      refine .afterToken ht hk (by simp) fun fresh' _ =>
        .bindAttempt (sound_motion h n kind _) (fun us m hm _ => ?_) fun fault _ => ?_
      · refine .skipOptional (by decide) (fun _ => ?_) fun s hs _ => ?_
        · exact .last (ih _) fun _ _ hmore => .cons hk hm hmore
        · exact .last (ih _) fun _ _ hmore => .semicolon rfl hk hm hs hmore
      · exact List.cons_ne_nil _ _
    · exact .report _ _

end Commands

/-! ## Statements -/

section Statements

variable {expr : Parser Expr} (h : ∀ fresh, Sound fresh Expression expr)
  {S : Rule (List Stmt)} {statements : Parser (List Stmt)} (hstatements : Sound false S statements)
  (n : Nat) {w : Word}

include hstatements in
theorem sound_block (opening closing : String) :
    Sound false (Block S) (block statements opening closing) :=
  fun _ => .expect (by decide) fun _ ho _ => .bind (hstatements _) fun _ _ hbody _ =>
    .expect (by decide) fun _ hc _ => .pure (.mk ho hbody hc)

include h in
theorem sound_bindingAfter (hw : w.Is (.keyword .letKw)) :
    Sound false (fun ws => Let (w :: ws)) (bindingAfter expr w.position) := by
  refine fun _ => .bind (sound_name false _ _) ?_
  rintro _ _ ⟨hname⟩ _
  exact .expect (by decide) fun _ hsign _ => .last (h false _) fun _ _ he => .mk hw hname hsign he

include h in
theorem sound_initClause : Sound false InitClause (initClause expr) := by
  intro ts
  apply SoundAt.look
  intro t ht
  split
  · exact .pure .none
  · next hk =>
    exact .afterToken ht hk (by decide) fun fresh' _ =>
      .last (sound_bindingAfter h (w := ⟨t, fresh'⟩) hk _) fun _ _ => .binding
  · exact .last (h false _) fun _ _ => .expr

include h in
theorem sound_updateClause : Sound false UpdateClause (updateClause expr) := by
  intro ts
  apply SoundAt.look
  intro t _
  exact .ite (fun _ => .pure .none) fun _ => .last (h false _) fun _ _ => .some

theorem sound_importedNames : Sound false ImportedNames (importedNames n) := by
  intro ts
  apply SoundAt.look
  intro t _
  apply SoundAt.ite
  · intro _
    exact .pure .none
  · intro _
    exact .bind (sound_items (fun fresh => sound_name fresh _) false n _) fun _ _ hids _ =>
      .expectWord fun _ hw _ => .pure (.some hids hw)

include h hstatements

theorem sound_ifAfter (k : Nat) (hw : w.Is (.keyword .ifKw)) :
    Sound false (fun ws => If S (w :: ws)) (ifAfter expr statements k w.position) := by
  induction k generalizing w with
  | zero => exact fun _ => .exhausted
  | succ k ih =>
    refine fun _ => .bind (h false _) fun us cond hcond _ =>
      .bind (sound_block hstatements _ _ _) fun vs body hbody ts => ?_
    apply SoundAt.look
    intro t ht
    apply SoundAt.ite
    · intro hk
      refine .afterToken ht hk (by decide) fun _ ts => ?_
      apply SoundAt.look
      intro t' ht'
      apply SoundAt.ite
      · intro hk'
        exact .afterToken ht' hk' (by decide) fun fresh' _ =>
          .last (ih (w := ⟨t', fresh'⟩) hk' _) fun _ _ hnested =>
            .elseIf hw hcond hbody hk hnested
      · intro _
        exact .last (sound_block hstatements _ _ _) fun _ _ halternative =>
          .ifElse hw hcond hbody hk halternative
    · intro _
      refine .pure ?_
      rw [List.append_nil]
      exact .ifThen hw hcond hbody

/-- What a keyword starts, after the keyword. -/
theorem sound_keywordStatement? {word : Keyword} (hw : w.Is (.keyword word)) {after : Parser Stmt}
    (hafter : keywordStatement? n expr statements w.position word = some after) :
    Sound false (fun ws => BareStatement true S (w :: ws)) after := by
  intro ts
  cases word <;> simp only [keywordStatement?, Option.some.injEq, reduceCtorEq] at hafter <;>
    subst hafter
  case letKw => exact .last (sound_bindingAfter h hw _) fun _ _ => .binding
  case fnKw =>
    refine .bind (sound_name false _ _) ?_
    rintro _ _ ⟨hname⟩ _
    refine .expect (by decide) fun _ ho _ =>
      .bind (sound_itemsUntil (fun fresh => sound_name fresh _) n (by decide) _ _) ?_
    rintro _ params ⟨us, c, rfl, hparams, hc⟩ _
    refine .last (sound_block hstatements _ _ _) fun _ _ hbody => ?_
    rw [List.append_assoc]
    exact .function hw hname ho hparams hc hbody
  case returnKw =>
    apply SoundAt.lookHere
    intro t ht
    split
    case h_5 hline _ _ _ =>
      have hjoined : (ts.headD .beyond).kind ≠ .newline := ht ▸ hline
      exact .last ((h false ts).joined hjoined) fun _ _ he => .retValue hw he.1 he.2
    all_goals exact .pure (.ret hw)
  case ifKw => exact (sound_ifAfter h hstatements n hw _).imp fun _ _ => .cond
  case repeatKw =>
    exact .bind (h false _) fun _ _ htimes _ => .last (sound_block hstatements _ _ _)
      fun _ _ hbody => .repeatLoop hw htimes hbody
  case whileKw =>
    exact .bind (h false _) fun _ _ hcond _ => .last (sound_block hstatements _ _ _)
      fun _ _ hbody => .whileLoop hw hcond hbody
  case forKw =>
    exact .expect (by decide) fun _ ho _ => .bind (sound_initClause h _) fun _ _ hinit _ =>
      .expect (by decide) fun _ hs₁ _ => .bind (h false _) fun _ _ hcond _ =>
      .expect (by decide) fun _ hs₂ _ => .bind (sound_updateClause h _) fun _ _ hupdate _ =>
      .expect (by decide) fun _ hc _ => .last (sound_block hstatements _ _ _) fun _ _ hbody =>
        .forLoop hw ho hinit hs₁ hcond hs₂ hupdate hc hbody
  case importKw =>
    exact .bind (sound_importedNames n _) fun _ _ hnames _ => .expect (by decide) fun _ hpath _ =>
      .pure (.importFrom hw hnames hpath)
  case sceneKw =>
    refine .bind (sound_name false _ _) ?_
    rintro _ _ ⟨hname⟩ _
    exact .last (sound_block hstatements _ _ _) fun _ _ hbody => .scene hw hname hbody
  case animateKw =>
    exact .expect (by decide) fun _ ho _ => .bind (sound_commands h n n _) fun _ _ hcommands _ =>
      .expect (by decide) fun _ hc _ => .pure (.animate hw ho hcommands hc)

theorem sound_bareStatement (fresh : Bool) :
    Sound fresh (BareStatement true S) (bareStatement n expr statements) := by
  have hexpr : Sound fresh (BareStatement true S) (exprStatement expr) :=
    fun _ => .last (h fresh _) fun _ _ => .expr
  intro ts
  apply SoundAt.look
  intro t ht
  split
  · next word hk =>
    split
    · next after hafter =>
      exact .afterToken ht hk (by simp) fun fresh' =>
        sound_keywordStatement? h hstatements n (w := ⟨t, fresh'⟩) hk hafter
    · exact hexpr ts
  · exact hexpr ts

theorem sound_statement (fresh : Bool) :
    Sound fresh (Statement true S) (statement n expr statements) := by
  refine fun _ => .bind (sound_bareStatement h hstatements n fresh _) fun us s hs _ =>
    .skipOptional (by decide) (fun _ => .pure ?_) fun w hw _ => .pure (.semicolon hs hw)
  rw [List.append_nil]
  exact .bare hs

end Statements

theorem sound_statementList (inBlock : Bool) {one : Parser Stmt}
    (h : ∀ fresh, Sound fresh (Statement true (Statements true)) one) (k : Nat) :
    Sound false (Statements true) (statementList inBlock one k) := by
  induction k with
  | zero => exact fun _ => .pure .nil
  | succ k ih =>
    intro ts
    apply SoundAt.look
    intro t _
    apply SoundAt.ite
    · intro _
      exact .pure .nil
    · intro _
      refine .skipLineEnds fun fresh' => .bindAttempt (h fresh' _) (fun us s hs _ => ?_) fun _ _ => ?_
      · exact .last (ih _) fun _ _ hmore => .cons hs hmore
      · exact List.cons_ne_nil _ _

theorem sound_statementsWithin (n : Nat) (inBlock : Bool) :
    Sound false (Statements true) (statementsWithin n inBlock) := by
  induction n generalizing inBlock with
  | zero => exact fun _ => .pure .nil
  | succ n ih =>
    exact sound_statementList inBlock
      (sound_statement (sound_expressionWithin (n + 1)) (ih true) n) n

end Parser

namespace Grammar

open Easel.Parser

/-- The words of tokens with a last one that is no line end. -/
theorem exists_wordsFrom_append {eof : Token} (hline : eof.kind ≠ .newline) (body : List Token)
    (fresh : Bool) : ∃ us fresh', wordsFrom fresh (body ++ [eof]) = us ++ [⟨eof, fresh'⟩] ∧
      ∀ w ∈ us, w.token ∈ body := by
  induction body generalizing fresh with
  | nil => exact ⟨[], fresh, by rw [List.nil_append, wordsFrom, if_neg hline]; rfl,
      List.forall_mem_nil _⟩
  | cons t body ih =>
    rw [List.cons_append, wordsFrom]
    by_cases hk : t.kind = .newline
    · obtain ⟨us, fresh', hwords, hus⟩ := ih true
      rw [if_pos hk]
      exact ⟨us, fresh', hwords, fun w hw => .tail _ (hus w hw)⟩
    · obtain ⟨us, fresh', hwords, hus⟩ := ih false
      rw [if_neg hk, hwords]
      exact ⟨⟨t, fresh⟩ :: us, fresh', rfl,
        List.forall_mem_cons.2 ⟨.head _, fun w hw => .tail _ (hus w hw)⟩⟩

/-- The first word of tokens is the next token. -/
theorem token_eq_peek {ts : List Token} {w : Word} {ws : List Word} (h : words ts = w :: ws) :
    w.token = peek ts := by
  obtain ⟨fresh', hwords⟩ := exists_wordsFrom false ts
  rw [words, hwords] at h
  cases hs : significant ts with
  | nil =>
    rw [hs] at h
    cases h
  | cons t rest =>
    rw [hs, wordsFrom, if_neg (ne_newline_of_significant hs)] at h
    rw [← (List.cons.inj h).1, peek_eq_of_significant hs]

/-- Where words up to the end of a text are taken apart, and what is taken has no end in it but what
is left starts with one, the end is left. -/
theorem eq_of_append_eq {us ws rest : List Word} {w : Word} (h : us ++ [w] = ws ++ rest)
    (hus : ∀ w ∈ us, ¬ w.Is .eof) (hws : ∀ w ∈ ws, ¬ w.Is .eof) (hw : w.Is .eof)
    (hrest : ∀ w ∈ rest.head?, w.Is .eof) : ws = us := by
  rcases List.append_eq_append_iff.1 h with ⟨as, rfl, has⟩ | ⟨bs, rfl, rfl⟩
  · cases as with
    | nil => exact List.append_nil us
    | cons a as =>
      obtain rfl : w = a := (List.cons.inj has).1
      exact absurd hw (hws w (by simp))
  · cases bs with
    | nil => exact (List.append_nil ws).symm
    | cons b bs => exact absurd (hrest b rfl) (hus b (by simp))

end Grammar

open Grammar

/-- What is left of a program that is read without a fault starts with the end of the text. -/
theorem Parser.kind_peek_rest {ts : List Token} (h : (parse ts).2 = []) :
    (peek (statementsWithin (ts.length + 2) false ts).rest).kind = .eof := by
  have hconsumes := consumes_statement (readsExpr_expressionWithin (ts.length + 2))
    (consumes_expressionWithin _) (ts.length + 1) (readsStmts_statementsWithin (ts.length + 1) true)
  have hends := endsStatements_rest hconsumes ts.length.lt_succ_self h
  by_contra hne
  exact absurd (hends.symm.trans (endsStatements_false hne)) (by decide)

/-- The words that are taken where no fault is reported, and what is left. -/
theorem exists_statements_of_parse {ts : List Token} (h : (parse ts).2 = []) :
    ∃ ws rest, words ts = ws ++ rest ∧ (∀ w ∈ ws, ¬ w.Is .eof) ∧ (∀ w ∈ rest.head?, w.Is .eof) ∧
      Statements true ws (parse ts).1 := by
  obtain ⟨ss, hss⟩ := Parser.exists_statementList_eq_ok false _ _ ts
  obtain ⟨ws, hws, hends, hstatements⟩ :=
    Parser.sound_statementsWithin (ts.length + 2) false ts ss hss h
  refine ⟨ws, _, hws, hends, fun w hw => ?_, ?_⟩
  · obtain ⟨vs, hvs⟩ := List.head?_eq_some_iff.1 hw
    unfold Word.Is
    rw [token_eq_peek hvs]
    exact Parser.kind_peek_rest h
  · have hp : (parse ts).1 = ss := by
      unfold parse
      exact congrArg (fun r => r.toOption.getD []) hss
    rwa [hp]

/-- Where the tokens of a text up to its only end are read without a fault, they are derived from
the grammar, with the program that is read as the tree, where a semicolon may follow a command. -/
theorem parse_derives {body : List Token} {eof : Token} (heof : eof.kind = .eof)
    (hbody : ∀ t ∈ body, t.kind ≠ .eof) (h : (parse (body ++ [eof])).2 = []) :
    Derives true (words (body ++ [eof])) (parse (body ++ [eof])).1 := by
  have hline : eof.kind ≠ .newline := by
    rw [heof]
    decide
  obtain ⟨us, fresh', hall, hus⟩ := exists_wordsFrom_append hline body false
  obtain ⟨ws, rest, hws, hends, hrest, hstatements⟩ := exists_statements_of_parse h
  obtain rfl := eq_of_append_eq (hall.symm.trans hws) (fun w hw => hbody _ (hus w hw)) hends heof
    hrest
  rw [words, hall]
  exact .mk hstatements heof

/-- Assignment groups to the right and subtraction to the left, multiplication and negation bind
stronger, and a line end closes the expression. -/
theorem parse_derives_levels :
    let ts := Token.lex "a = b = c - d - e * -f.g\nanimate { bounce; }"
    (parse ts).2 = [] ∧ Derives true (words ts) [
      .expr (.assign (.ident ⟨⟨1, 1⟩, "a"⟩) (.assign (.ident ⟨⟨1, 5⟩, "b"⟩)
        (.binary ⟨1, 15⟩ .sub
          (.binary ⟨1, 11⟩ .sub (.ident ⟨⟨1, 9⟩, "c"⟩) (.ident ⟨⟨1, 13⟩, "d"⟩))
          (.binary ⟨1, 19⟩ .mul (.ident ⟨⟨1, 17⟩, "e"⟩)
            (.negate ⟨1, 21⟩ (.member (.ident ⟨⟨1, 22⟩, "f"⟩) ⟨⟨1, 24⟩, "g"⟩)))))),
      .animate ⟨2, 1⟩ [⟨⟨2, 11⟩, .bounce none⟩]] := by
  intro ts
  have hlex : ts = ts.dropLast ++ [⟨.eof, "", ⟨2, 20⟩, 44⟩] := by decide +kernel
  have hbody : ∀ t ∈ ts.dropLast, t.kind ≠ .eof := by decide +kernel
  have hfaults : (parse ts).2 = [] := by decide +kernel
  have hderives := parse_derives rfl hbody (hlex ▸ hfaults)
  rw [← hlex] at hderives
  refine ⟨hfaults, Eq.subst (motive := Derives true (words ts)) ?_ hderives⟩
  dsimp only [ts]
  eq_refl

/-- What spells one block with one `bounce`, where no semicolon may follow it, ends with a semicolon
after the block or has no semicolon at all. -/
theorem Grammar.Derives.bounce {ws : List Word} {p q : Position}
    (h : Derives false ws [.animate p [⟨q, .bounce none⟩]]) :
    ws.length = 5 ∨ ∃ us w last, ws = us ++ [w, last] ∧ w.Is .semicolon := by
  have hcommands {us : List Word} (h : Commands false us [⟨q, .bounce none⟩]) : us.length = 1 := by
    cases h with
    | cons _ hform hmore =>
      cases hmore
      cases hform with
      | bounce hheight =>
        cases hheight
        rfl
    | semicolon hallowed => cases hallowed
  have hbare {S : Rule (List Stmt)} {us : List Word}
      (h : BareStatement false S us (.animate p [⟨q, .bounce none⟩])) : us.length = 4 := by
    cases h with
    | animate _ _ hlist => simp [hcommands hlist]
    | cond hif => cases hif
  obtain ⟨hstatements, -⟩ := h
  cases hstatements with
  | cons hstatement hmore =>
    cases hmore
    rw [List.append_nil]
    cases hstatement with
    | bare hs => exact .inl (by simp [hbare hs])
    | semicolon hs hw => exact .inr ⟨_, _, _, List.append_assoc _ _ _, hw⟩

/-- A semicolon after a command is read without a fault. -/
theorem not_derives_semicolon :
    let ts := Token.lex r"animate { bounce; }"
    (∃ body eof, ts = body ++ [eof] ∧ eof.kind = .eof ∧ ∀ t ∈ body, t.kind ≠ .eof) ∧
      (parse ts).2 = [] ∧ ¬ Derives false (words ts) (parse ts).1 := by
  have hp : (parse (Token.lex r"animate { bounce; }")).1 =
      [.animate ⟨1, 1⟩ [⟨⟨1, 11⟩, .bounce none⟩]] := by
    eq_refl
  intro ts
  refine ⟨⟨ts.dropLast, ⟨.eof, "", ⟨1, 20⟩, 19⟩, by decide +kernel, rfl, by decide +kernel⟩,
    by decide +kernel, fun h => ?_⟩
  rw [hp] at h
  rcases h.bounce with hlength | ⟨us, w, last, hws, hw⟩
  · exact absurd hlength (by decide +kernel)
  · -- The word before the end is the brace that closes the block.
    have hbrace : (words ts).reverse[1]? = some ⟨⟨.rbrace, r"}", ⟨1, 19⟩, 18⟩, false⟩ := by
      decide +kernel
    rw [hws, List.reverse_append] at hbrace
    obtain rfl := Option.some.inj hbrace
    cases hw

end Easel
