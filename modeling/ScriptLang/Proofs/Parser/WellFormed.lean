import Mathlib
import ScriptLang.Proofs.Parser.Answer

/-!
# What is read is well formed

Every program that the parser answers is well formed, whatever the text. The
productions of expressions call one another, and so do those of statements. Each
is dealt with by itself, under the assumption that with less nesting all of its
group answer well-formed trees; the induction is on the bound for the nesting.
-/

namespace ScriptLang

namespace Connective

/-- An operator that a token joins with the equals sign is one that updates. -/
theorem updates_of_ofToken? {t : Token} {op : Option BinaryOp}
    (h : ofToken? t = some (.assign op)) : ∀ b ∈ op, BinaryOp.updates b = true := by
  unfold ofToken? at h
  split at h
  next =>
    have mem := List.mem_of_find?_eq_some h
    rintro b rfl
    exact (by simpa [all] using mem : b ∈ BinaryOp.all ∧ b.updates = true).2
  next => simp at h

end Connective

namespace Parser

variable {dollar : Bool} {fuel : Nat}

/-! ## Expressions -/

/-- With this much nesting, expressions and their parts are well formed. -/
structure ReadsExpressions (dollar : Bool) (fuel : Nat) : Prop where
  expression : ∀ least, Yields dollar (expression fuel least) (Expr.WellFormed dollar)
  climb : ∀ least lhs, lhs.WellFormed dollar →
    Yields dollar (climb fuel least lhs) (Expr.WellFormed dollar)
  operand : Yields dollar (operand fuel) (Expr.WellFormed dollar)
  suffixes : ∀ e, e.WellFormed dollar → Yields dollar (suffixes fuel e) (Expr.WellFormed dollar)
  subscript : ∀ target, target.WellFormed dollar →
    Yields dollar (subscript fuel target) (Expr.WellFormed dollar)
  term : Yields dollar (term fuel) (Expr.WellFormed dollar)
  elements : ∀ close, Yields dollar (elements fuel close) (WellFormedExprs dollar)
  entries : Yields dollar (entries fuel) (WellFormedEntries dollar)

namespace ReadsExpressions

theorem zero : ReadsExpressions dollar 0 where
  expression _ := .tooDeep
  climb _ _ _ := .tooDeep
  operand := .tooDeep
  suffixes _ _ := .tooDeep
  subscript _ _ := .tooDeep
  term := .tooDeep
  elements _ := .tooDeep
  entries := .tooDeep

variable (h : ReadsExpressions dollar fuel)

include h

theorem expression_succ (least : Nat) :
    Yields dollar (Parser.expression (fuel + 1) least) (Expr.WellFormed dollar) :=
  .bind h.operand fun lhs hl => h.climb least lhs hl

theorem climb_succ (least : Nat) (lhs : Expr) (hl : lhs.WellFormed dollar) :
    Yields dollar (Parser.climb (fuel + 1) least lhs) (Expr.WellFormed dollar) := by
  unfold Parser.climb
  refine .peek fun t => Yields.at ?_ t
  cases hc : Connective.ofToken? t with
  | none => exact .pure hl
  | some c =>
      refine .ite (fun _ => .pure hl) fun _ => .ite (fun _ => ?_) fun hassign => ?_
      · exact .bind (P := fun _ => False) (.refuse _) fun _ => False.elim
      · refine .bind .advance fun _ _ => .bind (h.expression _) fun rhs hr => h.climb _ _ ?_
        cases c with
        | binary op => exact ⟨hl, hr⟩
        | assign op =>
            have target : lhs.isAssignable = true := by
              simpa [Connective.isAssign] using hassign
            exact ⟨target, Connective.updates_of_ofToken? hc, hl, hr⟩

theorem operand_succ : Yields dollar (Parser.operand (fuel + 1)) (Expr.WellFormed dollar) := by
  unfold Parser.operand
  refine .peek fun t => Yields.at ?_ t
  cases UnaryOp.ofToken? t with
  | some op => exact .bind .advance fun _ _ => .bind h.operand fun e he => .pure he
  | none => exact .bind h.term fun e he => h.suffixes e he

theorem suffixes_succ (e : Expr) (he : e.WellFormed dollar) :
    Yields dollar (Parser.suffixes (fuel + 1) e) (Expr.WellFormed dollar) := by
  unfold Parser.suffixes
  refine .bind (.eat _) fun _ _ => .ite (fun _ => ?_) fun _ => ?_
  · refine .bind .skipNewline fun _ _ => .bind (h.elements _) fun args ha => ?_
    exact h.suffixes _ ⟨he, ha⟩
  refine .bind (.eat _) fun _ _ => .ite (fun _ => ?_) fun _ => ?_
  · exact .bind .memberName fun name hn => h.suffixes _ ⟨he, lexesAs_quoted hn⟩
  refine .bind (.eat _) fun _ _ => .ite (fun _ => ?_) fun _ => .pure he
  exact .bind (h.subscript e he) fun e he => h.suffixes e he

theorem subscript_succ (target : Expr) (ht : target.WellFormed dollar) :
    Yields dollar (Parser.subscript (fuel + 1) target) (Expr.WellFormed dollar) := by
  have slice : ∀ start : Expr, start = .omitted ∨ start.WellFormed dollar →
      Yields dollar (do
        let stop ← if ← atLexeme "]" then pure .omitted else Parser.expression fuel 0
        expect "]"
        return .slice target start stop) (Expr.WellFormed dollar) := by
    intro start hs
    refine .bind (.atLexeme _) fun _ _ => .ite (fun _ => ?_) fun _ => ?_
    · exact .bind (P := (· = .omitted)) (.pure rfl) fun stop hstop => .bind (.expect _) fun _ _ =>
        .pure ⟨ht, hs, .inl hstop⟩
    · exact .bind (h.expression 0) fun stop hstop => .bind (.expect _) fun _ _ =>
        .pure ⟨ht, hs, .inr hstop⟩
  unfold Parser.subscript
  refine .atLexeme_bind fun t => .ite (fun colon => ?_) fun _ => Yields.at ?_ t
  · -- a bound is left out before a colon only, and the colon is then taken
    rw [pure_bind]
    refine .eat_of_is colon ?_
    exact slice .omitted (.inl rfl)
  · refine .bind (h.expression 0) fun start hs => .bind (.eat _) fun _ _ => ?_
    refine .ite (fun _ => slice start (.inr hs)) fun _ => ?_
    exact .bind (.expect _) fun _ _ => .pure ⟨ht, hs⟩

theorem term_succ : Yields dollar (Parser.term (fuel + 1)) (Expr.WellFormed dollar) := by
  unfold Parser.term
  refine .peek fun t => .ite (fun quote => .advance fun ht => .pure ?_) fun _ => ?_
  · have lexes := ht (by rw [quote]; rfl)
    rwa [quote] at lexes
  refine .ite (fun number => .advance fun ht => .pure ?_) fun _ => ?_
  · have lexes := ht (by rw [number]; rfl)
    rwa [number] at lexes
  refine .ite (fun name => .advance fun ht => .pure (isName_of_genuine ht name)) fun _ => ?_
  refine Yields.at ?_ t
  refine .bind (.eat _) fun _ _ => .ite (fun _ => ?_) fun _ => ?_
  · exact .bind .skipNewline fun _ _ => .bind (h.expression 0) fun e he =>
      .bind .skipNewline fun _ _ => .bind (.expect _) fun _ _ => .pure he
  refine .bind (.eat _) fun _ _ => .ite (fun _ => ?_) fun _ => ?_
  · exact .bind .skipNewline fun _ _ => .bind (h.elements _) fun items hi => .pure hi
  refine .bind (.eat _) fun _ _ => .ite (fun _ => ?_) fun _ => .refuse _
  exact .bind .skipNewline fun _ _ => .bind h.entries fun entries he => .pure he

theorem elements_succ (close : String) :
    Yields dollar (Parser.elements (fuel + 1) close) (WellFormedExprs dollar) := by
  unfold Parser.elements
  refine .bind (.eat _) fun _ _ => .ite (fun _ => .pure trivial) fun _ => ?_
  refine .bind (h.expression 0) fun e he => .bind .skipNewline fun _ _ => ?_
  refine .bind (.eat _) fun _ _ => .ite (fun _ => ?_) fun _ => ?_
  · refine .bind .skipNewline fun _ _ => .bind (h.elements _) fun rest hr => ?_
    exact .pure ⟨he, hr⟩
  · exact .bind (.expect _) fun _ _ => .pure ⟨he, trivial⟩

theorem entries_succ :
    Yields dollar (Parser.entries (fuel + 1)) (WellFormedEntries dollar) := by
  unfold Parser.entries
  refine .bind (.eat _) fun _ _ => .ite (fun _ => .pure trivial) fun _ => ?_
  refine .bind (h.expression 0) fun key hk => .bind (.expect _) fun _ _ => ?_
  refine .bind (h.expression 0) fun value hv => .bind .skipNewline fun _ _ => ?_
  refine .bind (.eat _) fun _ _ => .ite (fun _ => ?_) fun _ => ?_
  · refine .bind .skipNewline fun _ _ => .bind h.entries fun rest hr => ?_
    exact .pure ⟨hk, hv, hr⟩
  · exact .bind (.expect _) fun _ _ => .pure ⟨hk, hv, trivial⟩

theorem succ : ReadsExpressions dollar (fuel + 1) where
  expression := h.expression_succ
  climb := h.climb_succ
  operand := h.operand_succ
  suffixes := h.suffixes_succ
  subscript := h.subscript_succ
  term := h.term_succ
  elements := h.elements_succ
  entries := h.entries_succ

end ReadsExpressions

/-- Expressions are well formed, however deep they nest. -/
theorem readsExpressions (dollar : Bool) (fuel : Nat) : ReadsExpressions dollar fuel := by
  induction fuel with
  | zero => exact .zero
  | succ fuel ih => exact ih.succ

theorem Yields.expression (fuel least : Nat) :
    Yields dollar (expression fuel least) (Expr.WellFormed dollar) :=
  (readsExpressions dollar fuel).expression least

theorem Yields.arguments (fuel : Nat) :
    Yields dollar (arguments fuel) fun args => args ≠ [] ∧ WellFormedExprs dollar args := by
  induction fuel with
  | zero => exact .tooDeep
  | succ fuel ih =>
      unfold Parser.arguments
      refine .bind (.expression _ _) fun e he => .bind (.eat _) fun _ _ => ?_
      refine .ite (fun _ => ?_) fun _ => .pure ⟨List.cons_ne_nil _ _, he, trivial⟩
      exact .bind ih fun rest hr => .pure ⟨List.cons_ne_nil _ _, he, hr.2⟩

/-! ## Parts of statements -/

theorem Yields.names (fuel : Nat) :
    Yields dollar (names fuel) fun xs => xs ≠ [] ∧ ∀ x ∈ xs, IsName dollar x := by
  induction fuel with
  | zero => exact .tooDeep
  | succ fuel ih =>
      unfold Parser.names
      refine .bind .name fun first hf => .bind (.eat _) fun _ _ => .ite (fun _ => ?_) fun _ => ?_
      · exact .bind ih fun rest hr =>
          .pure ⟨List.cons_ne_nil _ _, List.forall_mem_cons.mpr ⟨hf, hr.2⟩⟩
      · exact .pure ⟨List.cons_ne_nil _ _, by simpa using hf⟩

theorem Yields.parameters (fuel : Nat) :
    Yields dollar (parameters fuel) fun params => ∀ x ∈ params, IsName dollar x := by
  unfold Parser.parameters
  refine .bind (.expect _) fun _ _ => .bind (.eat _) fun _ _ => ?_
  refine .ite (fun _ => .pure (by simp)) fun _ => ?_
  exact .bind (.names fuel) fun params hp => .bind (.expect _) fun _ _ => .pure hp.2

theorem Yields.loopHeader :
    Yields dollar loopHeader fun header => ∀ x ∈ header.names, IsName dollar x := by
  unfold Parser.loopHeader
  refine .bind .name fun first hf => .bind (.eat _) fun _ _ => .ite (fun _ => ?_) fun _ => ?_
  · refine .bind .name fun second hs => .bind (.expect _) fun _ _ => .pure ?_
    simpa [LoopHeader.names] using ⟨hf, hs⟩
  · refine .bind (.expect _) fun _ _ => .pure ?_
    simpa [LoopHeader.names] using hf

variable {place : Place}

theorem Yields.expressionStatement (fuel : Nat) :
    Yields dollar (expressionStatement fuel) (Stmt.WellFormed dollar place) := by
  unfold Parser.expressionStatement
  refine .bind (.expression _ _) fun e he => .bind (.eat _) fun _ _ => ?_
  refine .ite (fun _ => ?_) fun _ => ?_
  · refine .bind .name fun callee hc => .peek fun t => Yields.at ?_ t
    refine .ite (fun _ => ?_) fun _ => ?_
    · exact .bind (.arguments fuel) fun more hm => .pure ⟨hc, he, hm.2⟩
    · exact .bind (P := (· = [])) (.pure rfl) fun more hm => .pure ⟨hc, he, hm ▸ trivial⟩
  · refine .peek fun t => Yields.at ?_ t
    refine .ite (fun _ => ?_) fun _ => .pure he
    exact .bind (.arguments fuel) fun args ha => .pure ⟨he, ha.2⟩

theorem Yields.returnStatement (fuel : Nat) :
    Yields dollar (returnStatement fuel place) (Stmt.WellFormed dollar place) := by
  unfold Parser.returnStatement
  refine .ite (fun inside => ?_) fun _ => ?_
  · refine .bind .advance fun _ _ => .bind .atNewline fun _ _ => .ite (fun _ => ?_) fun _ => ?_
    · exact .pure ⟨inside, lexesAs_null dollar, by decide⟩
    · exact .bind (.expression _ _) fun value hv => .pure ⟨inside, hv⟩
  · exact .bind (P := fun _ => False) (.refuse _) fun _ => False.elim

theorem Yields.jump (word : String) {s : Stmt}
    (hs : place.inLoop = true → s.WellFormed dollar place) :
    Yields dollar (jump word place s) (Stmt.WellFormed dollar place) := by
  unfold Parser.jump
  refine .ite (fun inside => ?_) fun _ => ?_
  · exact .bind .advance fun _ _ => .pure (hs inside)
  · exact .bind (P := fun _ => False) (.refuse _) fun _ => False.elim

/-! ## Statements -/

/-- With this much nesting, statements and their parts are well formed where they
stand. -/
structure ReadsStatements (dollar : Bool) (fuel : Nat) : Prop where
  block : ∀ place, Yields dollar (block fuel place) (WellFormedBlock dollar place)
  statement : ∀ place, Yields dollar (statement fuel place) (Stmt.WellFormed dollar place)
  loopBody : ∀ place,
    Yields dollar (loopBody fuel place) (WellFormedBlock dollar { place with inLoop := true })
  alternative : ∀ place,
    Yields dollar (alternative fuel place) (Alternative.WellFormed dollar place)
  arms : ∀ place, Yields dollar (arms fuel place) (WellFormedArms dollar place)

namespace ReadsStatements

theorem zero : ReadsStatements dollar 0 where
  block _ := .tooDeep
  statement _ := .tooDeep
  loopBody _ := .tooDeep
  alternative _ := .tooDeep
  arms _ := .tooDeep

variable (h : ReadsStatements dollar fuel)

include h

theorem block_succ (place : Place) :
    Yields dollar (Parser.block (fuel + 1) place) (WellFormedBlock dollar place) := by
  unfold Parser.block
  refine .bind .atBlockEnd fun _ _ => .ite (fun _ => .pure trivial) fun _ => ?_
  refine .bind (h.statement place) fun s hs => .bind .expectNewline fun _ _ => ?_
  exact .bind (h.block place) fun rest hr => .pure ⟨hs, hr⟩

theorem loopBody_succ (place : Place) : Yields dollar (Parser.loopBody (fuel + 1) place)
    (WellFormedBlock dollar { place with inLoop := true }) := by
  unfold Parser.loopBody
  exact .bind (h.block _) fun body hb => .bind (.expect _) fun _ _ => .pure hb

theorem alternative_succ (place : Place) :
    Yields dollar (Parser.alternative (fuel + 1) place) (Alternative.WellFormed dollar place) := by
  unfold Parser.alternative
  refine .bind (.eat _) fun _ _ => .ite (fun _ => ?_) fun _ => ?_
  · refine .bind (.expression _ _) fun test ht => .bind .expectNewline fun _ _ => ?_
    refine .bind (h.block place) fun body hb => .bind (h.alternative place) fun rest hr => ?_
    exact .pure ⟨ht, hb, hr⟩
  refine .bind (.eat _) fun _ _ => .ite (fun _ => ?_) fun _ => ?_
  · exact .bind .expectNewline fun _ _ => .bind (h.block place) fun body hb =>
      .bind (.expect _) fun _ _ => .pure hb
  · exact .bind (.expect _) fun _ _ => .pure trivial

theorem arms_succ (place : Place) :
    Yields dollar (Parser.arms (fuel + 1) place) (WellFormedArms dollar place) := by
  unfold Parser.arms
  refine .bind (.eat _) fun _ _ => .ite (fun _ => ?_) fun _ => ?_
  · refine .bind (.arguments fuel) fun patterns hp => .bind .expectNewline fun _ _ => ?_
    refine .bind (h.block place) fun body hb => .bind (h.arms place) fun rest hr => ?_
    exact .pure ⟨hp.2, hb, fun empty => absurd empty hp.1, hr⟩
  refine .bind (.eat _) fun _ _ => .ite (fun _ => ?_) fun _ => ?_
  · -- nothing is read after an arm without patterns
    exact .bind .expectNewline fun _ _ => .bind (h.block place) fun body hb =>
      .bind (.expect _) fun _ _ => .pure ⟨trivial, hb, fun _ => rfl, trivial⟩
  · exact .bind (.expect _) fun _ _ => .pure trivial

theorem statement_succ (place : Place) :
    Yields dollar (Parser.statement (fuel + 1) place) (Stmt.WellFormed dollar place) := by
  unfold Parser.statement
  refine .peek fun t => Yields.at (.ite (fun _ => .expressionStatement fuel) fun _ => ?_) t
  split
  · refine .bind .advance fun _ _ => .bind (.expression _ _) fun test ht => ?_
    refine .bind .expectNewline fun _ _ => .bind (h.block place) fun body hb => ?_
    exact .bind (h.alternative place) fun rest hr => .pure ⟨ht, hb, hr⟩
  · refine .bind .advance fun _ _ => .bind (.expression _ _) fun test ht => ?_
    exact .bind .expectNewline fun _ _ => .bind (h.loopBody place) fun body hb => .pure ⟨ht, hb⟩
  · refine .bind .advance fun _ _ => .bind (.expression _ _) fun test ht => ?_
    exact .bind .expectNewline fun _ _ => .bind (h.loopBody place) fun body hb => .pure ⟨ht, hb⟩
  · refine .bind .advance fun _ _ => .bind .loopHeader fun header hh => ?_
    refine .bind (.expression _ _) fun iterable hi => .bind .expectNewline fun _ _ => ?_
    exact .bind (h.loopBody place) fun body hb => .pure ⟨hh, hi, hb⟩
  · refine .bind .advance fun _ _ => .bind (.expression _ _) fun subject hs => ?_
    exact .bind .expectNewline fun _ _ => .bind (h.arms place) fun arms ha => .pure ⟨hs, ha⟩
  · refine .bind .advance fun _ _ => .bind .name fun name hn => ?_
    refine .bind (.parameters fuel) fun params hp => .bind .expectNewline fun _ _ => ?_
    exact .bind (h.block _) fun body hb => .bind (.expect _) fun _ _ => .pure ⟨hn, hp, hb⟩
  · exact .returnStatement fuel
  · exact .bind .advance fun _ _ => .bind (.names fuel) fun names hn => .pure hn
  · exact .jump _ id
  · exact .jump _ id
  · exact .bind .advance fun _ _ => .bind (.expression _ _) fun test ht => .pure ht
  · exact .bind .advance fun _ _ => .bind (.expression _ _) fun value hv => .pure hv
  · refine .bind .advance fun _ _ => .bind .expectNewline fun _ _ => ?_
    refine .bind (h.block place) fun body hb => .bind (.expect _) fun _ _ => ?_
    refine .bind .name fun name hn => .bind .expectNewline fun _ _ => ?_
    exact .bind (h.block place) fun handler hh => .bind (.expect _) fun _ _ =>
      .pure ⟨hb, hn, hh⟩
  · exact .expressionStatement fuel

theorem succ : ReadsStatements dollar (fuel + 1) where
  block := h.block_succ
  statement := h.statement_succ
  loopBody := h.loopBody_succ
  alternative := h.alternative_succ
  arms := h.arms_succ

end ReadsStatements

theorem readsStatements (dollar : Bool) (fuel : Nat) : ReadsStatements dollar fuel := by
  induction fuel with
  | zero => exact .zero
  | succ fuel ih => exact ih.succ

theorem Yields.program (fuel : Nat) : Yields dollar (program fuel) (WellFormed dollar) := by
  unfold Parser.program
  refine .bind .skipNewline fun _ _ => ?_
  refine .bind ((readsStatements dollar fuel).block {}) fun body hb => ?_
  refine .peek fun t => Yields.at (.ite (fun _ => .pure hb) fun _ => ?_) t
  exact .bind (P := fun _ => False) (.refuse _) fun _ => False.elim

end Parser

/-! ## Programs -/

theorem genuine_cursor {dollar : Bool} {source : String} {c : Cursor}
    (h : (lex dollar source).cursor = .ok c) : c.Genuine dollar := by
  cases ht : (lex dollar source).tokens with
  | cons t rest =>
      obtain rfl : ⟨t, rest, (lex dollar source).fault⟩ = c := by simpa [Lexed.cursor, ht] using h
      intro t' ht'
      exact lexesAs_of_mem (ht ▸ ht')
  | nil =>
      cases hf : (lex dollar source).fault with
      | some d => simp [Lexed.cursor, ht, hf] at h
      | none =>
          obtain rfl : ⟨Token.endOfText 1, [], none⟩ = c := by
            simpa [Lexed.cursor, ht, hf] using h
          intro t' ht' hk
          obtain rfl : t' = Token.endOfText 1 := by simpa using ht'
          simp [Token.endOfText, Lexer.keepsText] at hk

/-- A program that is read from a text is the answer of the parser. -/
theorem exists_run_of_parse {o : Options} {source : String} {body : List Stmt}
    (h : parse o source = .ok body) :
    ∃ start rest, (lex o.dollarIdentifiers source).cursor = .ok start ∧
      (Parser.program (lex o.dollarIdentifiers source).nesting).run start = .ok (body, rest) := by
  rw [parse, Lexed.parse] at h
  cases hc : (lex o.dollarIdentifiers source).cursor with
  | error d =>
      rw [hc] at h
      cases h
  | ok start =>
      rw [hc] at h
      dsimp only [Bind.bind, Except.bind] at h
      split at h
      next body' rest hr =>
        obtain rfl := Except.ok.inj h
        exact ⟨start, rest, rfl, hr⟩
      next => cases h
      next => cases h

/-- Every program that is read from a text is well formed. -/
theorem wellFormed_of_parse (o : Options) (source : String) (body : List Stmt)
    (h : parse o source = .ok body) : WellFormed o.dollarIdentifiers body := by
  unfold parse Lexed.parse at h
  cases hc : (lex o.dollarIdentifiers source).cursor with
  | error d => simp [hc, Bind.bind, Except.bind] at h
  | ok start =>
      rw [hc] at h
      simp only [Bind.bind, Except.bind] at h
      split at h
      next body' c' hr =>
        obtain rfl := Except.ok.inj h
        exact (Parser.Yields.program _ start (genuine_cursor hc) _ _ hr).1
      next => cases h
      next => cases h

theorem wellFormed_of_parse_loop :
    parse {} "fn f(x)\n  while x\n    x -= 1\n    break\n  end\n  return x[1:]\nend\n" =
        .ok [.func "f" ["x"]
          [.whileLoop (.ident "x") [.expr (.assign (some .sub) (.ident "x") (.number "1")), .break],
            .ret (.slice (.ident "x") (.number "1") .omitted)]] ∧
      WellFormed false [.func "f" ["x"]
        [.whileLoop (.ident "x") [.expr (.assign (some .sub) (.ident "x") (.number "1")), .break],
          .ret (.slice (.ident "x") (.number "1") .omitted)]] := by
  refine (and_iff_left_of_imp (wellFormed_of_parse {} _ _)).mpr ?_
  cbv

end ScriptLang
