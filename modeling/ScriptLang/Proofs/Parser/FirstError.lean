import ScriptLang.Proofs.Parser.Prompt
import ScriptLang.Proofs.Token.Coverage

/-!
# The first error wins

All productions are prompt, so a text is refused at its first token that cannot
stand where it does, whatever follows, and a lexical fault is reported when every
token before it was accepted.
-/

namespace ScriptLang

open Lexer

namespace Connective

theorem not_eof_of_ofToken? {t : Token} {c : Connective} (h : ofToken? t = some c) :
    t.kind ≠ .eof := by
  intro eof
  simp [ofToken?, eof] at h

end Connective

namespace UnaryOp

theorem not_eof_of_ofToken? {t : Token} {op : UnaryOp} (h : ofToken? t = some op) :
    t.kind ≠ .eof := by
  intro eof
  simp [ofToken?, eof] at h

end UnaryOp

namespace Parser

variable {fuel : Nat}

/-! ## Expressions -/

/-- With nesting for `n` tokens the productions of expressions are prompt. A token
pays for eight levels of nesting, and a production that calls another one before it
has taken a token pays one. -/
structure PromptExpressions (fuel : Nat) : Prop where
  term : ∀ n, 8 * n ≤ fuel + 7 → Prompt n (n - 1) (term fuel) term
  operand : ∀ n, 8 * n ≤ fuel + 6 → Prompt n (n - 1) (operand fuel) operand
  expression : ∀ n least, 8 * n ≤ fuel + 5 →
    Prompt n (n - 1) (expression fuel least) (expression · least)
  climb : ∀ n least lhs, 8 * n ≤ fuel + 7 → Prompt n n (climb fuel least lhs) (climb · least lhs)
  suffixes : ∀ n e, 8 * n ≤ fuel + 7 → Prompt n n (suffixes fuel e) (suffixes · e)
  subscript : ∀ n e, 8 * n ≤ fuel + 4 → Prompt n n (subscript fuel e) (subscript · e)
  elements : ∀ n close, 8 * n ≤ fuel + 4 →
    Prompt n n (elements fuel close) (elements · close)
  entries : ∀ n, 8 * n ≤ fuel + 4 → Prompt n n (entries fuel) entries

namespace PromptExpressions

theorem zero : PromptExpressions 0 where
  term _ hn := .of_eq_zero (by omega)
  operand _ hn := .of_eq_zero (by omega)
  expression _ _ hn := .of_eq_zero (by omega)
  climb _ _ _ hn := .of_eq_zero (by omega)
  suffixes _ _ hn := .of_eq_zero (by omega)
  subscript _ _ hn := .of_eq_zero (by omega)
  elements _ _ hn := .of_eq_zero (by omega)
  entries _ hn := .of_eq_zero (by omega)

variable (h : PromptExpressions fuel)

include h

theorem term_succ (n : Nat) (hn : 8 * n ≤ fuel + 8) :
    Prompt n (n - 1) (Parser.term (fuel + 1)) Parser.term := by
  refine .of_succ rfl ?_
  simp only [Parser.term]
  refine .peek fun t => .ite (fun quote => .advance ?_ (.pure _ le_rfl)) fun _ => ?_
  · rw [quote]
    rintro ⟨⟩
  refine .ite (fun number => .advance ?_ (.pure _ le_rfl)) fun _ => ?_
  · rw [number]
    rintro ⟨⟩
  refine .ite (fun name => .advance ?_ (.pure _ le_rfl)) fun _ => ?_
  · intro eof
    simp [Token.isName, eof] at name
  refine Prompt.at ?_ t
  refine .eat ?_ (.eat ?_ (.eat ?_ (.refuse _)))
  · refine .bind .skipNewline fun _ => .bind (h.expression (n - 1) 0 (by omega)) fun e => ?_
    exact .bind .skipNewline fun _ => .bind (.expect _) fun _ => .pure _ (by omega)
  · exact .bind .skipNewline fun _ => .bind (h.elements _ _ (by omega)) fun _ => .pure _ le_rfl
  · exact .bind .skipNewline fun _ => .bind (h.entries _ (by omega)) fun _ => .pure _ le_rfl

theorem operand_succ (n : Nat) (hn : 8 * n ≤ fuel + 7) :
    Prompt n (n - 1) (Parser.operand (fuel + 1)) Parser.operand := by
  refine .of_succ rfl ?_
  simp only [Parser.operand]
  refine .peek fun t => ?_
  cases hop : UnaryOp.ofToken? t with
  | some op =>
      refine .advance (UnaryOp.not_eof_of_ofToken? hop) ?_
      exact .bind (h.operand (n - 1) (by omega)) fun _ => .pure _ (by omega)
  | none =>
      refine Prompt.at ?_ t
      exact .bind (h.term n hn) fun e => h.suffixes (n - 1) e (by omega)

theorem expression_succ (n least : Nat) (hn : 8 * n ≤ fuel + 6) :
    Prompt n (n - 1) (Parser.expression (fuel + 1) least) (Parser.expression · least) := by
  refine .of_succ rfl ?_
  simp only [Parser.expression]
  exact .bind (h.operand n hn) fun lhs => h.climb (n - 1) least lhs (by omega)

theorem climb_succ (n least : Nat) (lhs : Expr) (hn : 8 * n ≤ fuel + 8) :
    Prompt n n (Parser.climb (fuel + 1) least lhs) (Parser.climb · least lhs) := by
  refine .of_succ rfl ?_
  simp only [Parser.climb]
  refine .peek fun t => ?_
  cases hc : Connective.ofToken? t with
  | none => exact (Prompt.pure lhs le_rfl).at t
  | some c =>
      refine .ite (fun _ => (Prompt.pure lhs le_rfl).at t) fun _ => .ite (fun _ => ?_) fun _ => ?_
      · exact Prompt.refuse_bind.at t
      · refine .advance (Connective.not_eof_of_ofToken? hc) ?_
        refine .bind (h.expression (n - 1) _ (by omega)) fun rhs => ?_
        exact (h.climb (n - 1 - 1) least _ (by omega)).mono (by omega)

theorem suffixes_succ (n : Nat) (e : Expr) (hn : 8 * n ≤ fuel + 8) :
    Prompt n n (Parser.suffixes (fuel + 1) e) (Parser.suffixes · e) := by
  refine .of_succ rfl ?_
  simp only [Parser.suffixes]
  refine .eat ?_ (.eat ?_ (.eat ?_ (.pure e le_rfl)))
  · refine .bind .skipNewline fun _ => .bind (h.elements (n - 1) _ (by omega)) fun args => ?_
    exact (h.suffixes (n - 1) _ (by omega)).mono (by omega)
  · refine .bind .memberName fun name => ?_
    exact (h.suffixes (n - 1 - 1) _ (by omega)).mono (by omega)
  · refine .bind (h.subscript (n - 1) e (by omega)) fun e => ?_
    exact (h.suffixes (n - 1) e (by omega)).mono (by omega)

/-- A bound of a slice, or nothing before the mark that would follow it. -/
theorem bound (n : Nat) (text : String) {k : Expr → Parser Expr} {k' : Nat → Expr → Parser Expr}
    (hn : 8 * n ≤ fuel + 5) (hk : ∀ e, Prompt n n (k e) (fun i => k' i e)) :
    Prompt n n
      (Parser.atLexeme text >>= fun found =>
        if found = true then pure .omitted >>= k else Parser.expression fuel 0 >>= k)
      (fun i => Parser.atLexeme text >>= fun found =>
        if found = true then pure .omitted >>= k' i else Parser.expression i 0 >>= k' i) := by
  refine .bind (.atLexeme text) fun found => .ite (fun _ => ?_) fun _ => ?_
  · exact .bind (.pure _ le_rfl) hk
  · exact .bind ((h.expression n 0 hn).mono (Nat.sub_le n 1)) hk

theorem subscript_succ (n : Nat) (e : Expr) (hn : 8 * n ≤ fuel + 5) :
    Prompt n n (Parser.subscript (fuel + 1) e) (Parser.subscript · e) := by
  refine .of_succ rfl ?_
  simp only [Parser.subscript]
  refine h.bound n _ hn fun start => .eat ?_ ?_
  · refine (h.bound (n - 1) _ (by omega) fun stop => ?_).mono (Nat.sub_le n 1)
    exact .bind (.expect _) fun _ => .pure _ (by omega)
  · exact .bind (.expect _) fun _ => .pure _ (by omega)

theorem elements_succ (n : Nat) (close : String) (hn : 8 * n ≤ fuel + 5) :
    Prompt n n (Parser.elements (fuel + 1) close) (Parser.elements · close) := by
  refine .of_succ rfl ?_
  simp only [Parser.elements]
  refine .eat (.pure _ (by omega)) ?_
  refine .bind (h.expression n 0 hn) fun e => .bind .skipNewline fun _ => .eat ?_ ?_
  · refine .bind .skipNewline fun _ => ?_
    exact .bind (h.elements (n - 1 - 1) close (by omega)) fun rest => .pure _ (by omega)
  · exact .bind (.expect _) fun _ => .pure _ (by omega)

theorem entries_succ (n : Nat) (hn : 8 * n ≤ fuel + 5) :
    Prompt n n (Parser.entries (fuel + 1)) Parser.entries := by
  refine .of_succ rfl ?_
  simp only [Parser.entries]
  refine .eat (.pure _ (by omega)) ?_
  refine .bind (h.expression n 0 hn) fun key => .bind (.expect _) fun _ => ?_
  refine .bind (h.expression (n - 1 - 1) 0 (by omega)) fun value => ?_
  refine .bind .skipNewline fun _ => .eat ?_ ?_
  · refine .bind .skipNewline fun _ => .bind (h.entries _ (by omega)) fun rest => ?_
    exact .pure _ (by omega)
  · exact .bind (.expect _) fun _ => .pure _ (by omega)

theorem succ : PromptExpressions (fuel + 1) where
  term := h.term_succ
  operand := h.operand_succ
  expression := h.expression_succ
  climb := h.climb_succ
  suffixes := h.suffixes_succ
  subscript := h.subscript_succ
  elements := h.elements_succ
  entries := h.entries_succ

end PromptExpressions

theorem promptExpressions (fuel : Nat) : PromptExpressions fuel := by
  induction fuel with
  | zero => exact .zero
  | succ fuel ih => exact ih.succ

namespace Prompt

variable {n : Nat}

theorem expression (least : Nat) (hn : 8 * n ≤ fuel + 5) :
    Prompt n (n - 1) (expression fuel least) (Parser.expression · least) :=
  (promptExpressions fuel).expression n least hn

theorem arguments (hn : 8 * n ≤ fuel + 4) : Prompt n n (arguments fuel) Parser.arguments := by
  induction fuel generalizing n with
  | zero => exact .of_eq_zero (by omega)
  | succ fuel ih =>
      refine .of_succ rfl ?_
      simp only [Parser.arguments]
      refine .bind (.expression 0 (by omega)) fun e => .eat ?_ (.pure _ (by omega))
      exact .bind (ih (by omega)) fun rest => .pure _ (by omega)

/-! ## Parts of statements -/

theorem names (hn : 8 * n ≤ fuel + 7) : Prompt n n (names fuel) Parser.names := by
  induction fuel generalizing n with
  | zero => exact .of_eq_zero (by omega)
  | succ fuel ih =>
      refine .of_succ rfl ?_
      simp only [Parser.names]
      refine .bind .name fun first => .eat ?_ (.pure _ (by omega))
      exact .bind (ih (by omega)) fun rest => .pure _ (by omega)

theorem parameters (hn : 8 * n ≤ fuel + 7) :
    Prompt n (n - 1) (parameters fuel) Parser.parameters := by
  unfold Parser.parameters
  refine .bind (.expect _) fun _ => .eat (.pure _ (by omega)) ?_
  refine .bind (names (by omega)) fun params => ?_
  exact .bind (.expect _) fun _ => .pure _ (by omega)

theorem loopHeader : Prompt n (n - 1) loopHeader (fun _ => Parser.loopHeader) := by
  unfold Parser.loopHeader
  refine .bind .name fun first => .eat ?_ ?_
  · exact .bind .name fun second => .bind (.expect _) fun _ => .pure _ (by omega)
  · exact .bind (.expect _) fun _ => .pure _ (by omega)

theorem expressionStatement (hn : 8 * n ≤ fuel + 5) :
    Prompt n (n - 1) (expressionStatement fuel) Parser.expressionStatement := by
  unfold Parser.expressionStatement
  refine .bind (.expression 0 hn) fun e => .eat ?_ ?_
  · refine .bind .name fun callee => .peek fun t => Prompt.at ?_ t
    refine .ite (fun _ => ?_) fun _ => ?_
    · exact .bind (arguments (by omega)) fun more => .pure _ (by omega)
    · exact .bind (.pure _ le_rfl) fun more => .pure _ (by omega)
  · refine .peek fun t => Prompt.at ?_ t
    refine .ite (fun _ => ?_) fun _ => .pure _ le_rfl
    exact .bind (arguments (by omega)) fun args => .pure _ le_rfl

end Prompt

variable {n : Nat} {place : Place} {t : Token}

theorem PromptAt.returnStatement (ht : t.kind ≠ .eof) (hn : 8 * n ≤ fuel + 5) :
    PromptAt t n (n - 1) (returnStatement fuel place) (Parser.returnStatement · place) := by
  unfold Parser.returnStatement
  refine .ite (fun _ => .advance ht ?_) fun _ => Prompt.refuse_bind.at t
  refine .bind .atNewline fun _ => .ite (fun _ => .pure _ le_rfl) fun _ => ?_
  exact .bind (.expression 0 (by omega)) fun value => .pure _ (by omega)

theorem PromptAt.jump (ht : t.kind ≠ .eof) (word : String) (s : Stmt) :
    PromptAt t n (n - 1) (jump word place s) (fun _ => Parser.jump word place s) := by
  unfold Parser.jump
  exact .ite (fun _ => .advance ht (.pure s le_rfl)) fun _ => Prompt.refuse_bind.at t

/-! ## Statements -/

/-- With nesting for `n` tokens the productions of statements are prompt. -/
structure PromptStatements (fuel : Nat) : Prop where
  statement : ∀ n place, 8 * n ≤ fuel + 4 →
    Prompt n (n - 1) (statement fuel place) (statement · place)
  block : ∀ n place, 8 * n ≤ fuel + 3 → Prompt n n (block fuel place) (block · place)
  loopBody : ∀ n place, 8 * n ≤ fuel + 2 → Prompt n n (loopBody fuel place) (loopBody · place)
  alternative : ∀ n place, 8 * n ≤ fuel + 2 →
    Prompt n n (alternative fuel place) (alternative · place)
  arms : ∀ n place, 8 * n ≤ fuel + 2 → Prompt n n (arms fuel place) (arms · place)

namespace PromptStatements

theorem zero : PromptStatements 0 where
  statement _ _ hn := .of_eq_zero (by omega)
  block _ _ hn := .of_eq_zero (by omega)
  loopBody _ _ hn := .of_eq_zero (by omega)
  alternative _ _ hn := .of_eq_zero (by omega)
  arms _ _ hn := .of_eq_zero (by omega)

variable (h : PromptStatements fuel)

include h

theorem block_succ (n : Nat) (place : Place) (hn : 8 * n ≤ fuel + 4) :
    Prompt n n (Parser.block (fuel + 1) place) (Parser.block · place) := by
  refine .of_succ rfl ?_
  simp only [Parser.block]
  refine .bind .atBlockEnd fun _ => .ite (fun _ => .pure _ le_rfl) fun _ => ?_
  refine .bind (h.statement n place hn) fun s => .bind .expectNewline fun _ => ?_
  exact .bind (h.block _ place (by omega)) fun rest => .pure _ (by omega)

theorem loopBody_succ (n : Nat) (place : Place) (hn : 8 * n ≤ fuel + 3) :
    Prompt n n (Parser.loopBody (fuel + 1) place) (Parser.loopBody · place) := by
  refine .of_succ rfl ?_
  simp only [Parser.loopBody]
  refine .bind (h.block n _ hn) fun body => ?_
  exact .bind (.expect _) fun _ => .pure _ (by omega)

theorem alternative_succ (n : Nat) (place : Place) (hn : 8 * n ≤ fuel + 3) :
    Prompt n n (Parser.alternative (fuel + 1) place) (Parser.alternative · place) := by
  refine .of_succ rfl ?_
  simp only [Parser.alternative]
  refine .eat ?_ (.eat ?_ ?_)
  · refine .bind (.expression 0 (by omega)) fun test => .bind .expectNewline fun _ => ?_
    refine .bind (h.block _ place (by omega)) fun body => ?_
    exact .bind (h.alternative _ place (by omega)) fun rest => .pure _ (by omega)
  · refine .bind .expectNewline fun _ => .bind (h.block _ place (by omega)) fun body => ?_
    exact .bind (.expect _) fun _ => .pure _ (by omega)
  · exact .bind (.expect _) fun _ => .pure _ (by omega)

theorem arms_succ (n : Nat) (place : Place) (hn : 8 * n ≤ fuel + 3) :
    Prompt n n (Parser.arms (fuel + 1) place) (Parser.arms · place) := by
  refine .of_succ rfl ?_
  simp only [Parser.arms]
  refine .eat ?_ (.eat ?_ ?_)
  · refine .bind (.arguments (by omega)) fun patterns => .bind .expectNewline fun _ => ?_
    refine .bind (h.block _ place (by omega)) fun body => ?_
    exact .bind (h.arms _ place (by omega)) fun rest => .pure _ (by omega)
  · refine .bind .expectNewline fun _ => .bind (h.block _ place (by omega)) fun body => ?_
    exact .bind (.expect _) fun _ => .pure _ (by omega)
  · exact .bind (.expect _) fun _ => .pure _ (by omega)

theorem statement_succ (n : Nat) (place : Place) (hn : 8 * n ≤ fuel + 5) :
    Prompt n (n - 1) (Parser.statement (fuel + 1) place) (Parser.statement · place) := by
  refine .of_succ rfl ?_
  simp only [Parser.statement]
  refine .peek fun t => .ite (fun _ => (Prompt.expressionStatement hn).at t) fun word => ?_
  have ht : t.kind ≠ .eof := by
    intro eof
    simp [eof] at word
  split
  · refine .advance ht (.bind (.expression 0 (by omega)) fun test => ?_)
    refine .bind .expectNewline fun _ => .bind (h.block _ place (by omega)) fun body => ?_
    exact .bind (h.alternative _ place (by omega)) fun rest => .pure _ (by omega)
  · refine .advance ht (.bind (.expression 0 (by omega)) fun test => ?_)
    refine .bind .expectNewline fun _ => .bind (h.loopBody _ place (by omega)) fun body => ?_
    exact .pure _ (by omega)
  · refine .advance ht (.bind (.expression 0 (by omega)) fun test => ?_)
    refine .bind .expectNewline fun _ => .bind (h.loopBody _ place (by omega)) fun body => ?_
    exact .pure _ (by omega)
  · refine .advance ht (.bind .loopHeader fun header => ?_)
    refine .bind (.expression 0 (by omega)) fun iterable => .bind .expectNewline fun _ => ?_
    exact .bind (h.loopBody _ place (by omega)) fun body => .pure _ (by omega)
  · refine .advance ht (.bind (.expression 0 (by omega)) fun subject => ?_)
    refine .bind .expectNewline fun _ => .bind (h.arms _ place (by omega)) fun arms => ?_
    exact .pure _ (by omega)
  · refine .advance ht (.bind .name fun name => .bind (.parameters (by omega)) fun params => ?_)
    refine .bind .expectNewline fun _ => .bind (h.block _ _ (by omega)) fun body => ?_
    exact .bind (.expect _) fun _ => .pure _ (by omega)
  · exact .returnStatement ht hn
  · exact .advance ht (.bind (.names (by omega)) fun names => .pure _ le_rfl)
  · exact .jump ht _ _
  · exact .jump ht _ _
  · exact .advance ht (.bind (.expression 0 (by omega)) fun test => .pure _ (by omega))
  · exact .advance ht (.bind (.expression 0 (by omega)) fun value => .pure _ (by omega))
  · refine .advance ht (.bind .expectNewline fun _ => ?_)
    refine .bind (h.block _ place (by omega)) fun body => .bind (.expect _) fun _ => ?_
    refine .bind .name fun name => .bind .expectNewline fun _ => ?_
    refine .bind (h.block _ place (by omega)) fun handler => ?_
    exact .bind (.expect _) fun _ => .pure _ (by omega)
  · exact (Prompt.expressionStatement hn).at t

theorem succ : PromptStatements (fuel + 1) where
  statement := h.statement_succ
  block := h.block_succ
  loopBody := h.loopBody_succ
  alternative := h.alternative_succ
  arms := h.arms_succ

end PromptStatements

theorem promptStatements (fuel : Nat) : PromptStatements fuel := by
  induction fuel with
  | zero => exact .zero
  | succ fuel ih => exact ih.succ

theorem Prompt.program (hn : 8 * n ≤ fuel) : Prompt n n (program fuel) Parser.program := by
  unfold Parser.program
  refine .bind .skipNewline fun _ => ?_
  refine .bind ((promptStatements fuel).block n {} (by omega)) fun body => ?_
  refine .peek fun t => Prompt.at (.ite (fun _ => .pure body le_rfl) fun _ => ?_) t
  exact .refuse_bind

/-- A program is a block behind a line break, if there is one, up to the end of the text. -/
theorem block_of_program {c c' : Cursor} {body : List Stmt}
    (h : (program fuel).run c = .ok (body, c')) :
    ∃ first, skipNewline.run c = .ok ((), first) ∧
      (block fuel {}).run first = .ok (body, c') ∧ c'.current.kind = .eof := by
  obtain ⟨_, first, skipped, h⟩ := run_bind_eq_ok.mp h
  obtain ⟨body', c₂, read, h⟩ := run_bind_eq_ok.mp h
  obtain ⟨t, c₃, hpeek, h⟩ := run_bind_eq_ok.mp h
  obtain ⟨rfl, rfl⟩ : t = c₂.current ∧ c₃ = c₂ := by
    cases hpeek
    exact ⟨rfl, rfl⟩
  split at h
  next eof =>
    cases h
    exact ⟨first, skipped, read, eof⟩
  next => cases h

/-- A program ends where the text does. -/
theorem eof_of_program {c c' : Cursor} {body : List Stmt}
    (h : (program fuel).run c = .ok (body, c')) : c'.current.kind = .eof := by
  obtain ⟨_, -, -, eof⟩ := block_of_program h
  exact eof

end Parser

/-! ## Texts -/

/-- The fault lies in the spelling of a lexeme, not in what stands where. -/
def Cause.Lexical (c : Cause) : Prop := ∀ what, c ≠ .expected what

section Texts

variable {o : Options} {source : String} {c : Cursor} {d : Diagnostic}

theorem ended_of_cursor {dollar : Bool} (h : (lex dollar source).cursor = .ok c) :
    c.Ended ∧ c.tokens = (lex dollar source).tokens ∧ c.fault = (lex dollar source).fault := by
  have ended := getLast?_tokensFrom dollar 1 source.toList
  cases ht : (lex dollar source).tokens with
  | cons t rest =>
      obtain rfl : ⟨t, rest, (lex dollar source).fault⟩ = c := by simpa [Lexed.cursor, ht] using h
      refine ⟨fun none => ?_, rfl, rfl⟩
      rw [Cursor.tokens, ← ht]
      exact ended none
  | nil =>
      cases hf : (lex dollar source).fault with
      | some d => simp [Lexed.cursor, ht, hf] at h
      | none =>
          obtain ⟨t, last, -⟩ := ended hf
          rw [lex] at ht
          simp [ht] at last

theorem parse_of_cursor_error (h : (lex o.dollarIdentifiers source).cursor = .error d) :
    parse o source = .error d ∧ (lex o.dollarIdentifiers source).fault = some d := by
  refine ⟨by rw [parse, Lexed.parse, h]; rfl, ?_⟩
  unfold Lexed.cursor at h
  split at h
  · cases h
  next hf =>
    obtain rfl := Except.error.inj h
    exact hf
  · cases h

theorem cursor_of_tokens {dollar : Bool} (h : (lex dollar source).tokens ≠ []) :
    ∃ c, (lex dollar source).cursor = .ok c := by
  obtain ⟨t, rest, ht⟩ := List.exists_cons_of_ne_nil h
  exact ⟨⟨t, rest, (lex dollar source).fault⟩, by simp [Lexed.cursor, ht]⟩

theorem parse_of_run_ok {c' : Cursor} {body : List Stmt}
    (hc : (lex o.dollarIdentifiers source).cursor = .ok c)
    (h : (Parser.program (lex o.dollarIdentifiers source).nesting).run c = .ok (body, c')) :
    parse o source = .ok body := by
  simp [parse, Lexed.parse, hc, h, Bind.bind, Except.bind]

theorem parse_of_run_refused (hc : (lex o.dollarIdentifiers source).cursor = .ok c)
    (h : (Parser.program (lex o.dollarIdentifiers source).nesting).run c = .error (.refused d)) :
    parse o source = .error d := by
  simp [parse, Lexed.parse, hc, h, Bind.bind, Except.bind]

/-- The nesting that a text is given suffices, and no other contradicts its answer. -/
theorem program_settled (hc : (lex o.dollarIdentifiers source).cursor = .ok c) :
    Parser.Settled c.tokens.length Parser.program c
      ((Parser.program (lex o.dollarIdentifiers source).nesting).run c) := by
  obtain ⟨ended, tokens, -⟩ := ended_of_cursor hc
  refine Parser.Prompt.program ?_ c ended le_rfl
  rw [tokens, Lexed.nesting]
  omega

/-- The end of the text stands behind all other tokens, and there is no fault before it. -/
theorem rest_of_eof {dollar : Bool} {used : List Token}
    (whole : (lex dollar source).tokens = used ++ c.tokens) (eof : c.current.kind = .eof) :
    c.rest = [] ∧ (lex dollar source).fault = none := by
  have fault : (lex dollar source).fault = none :=
    fault_eq_none_of_mem (by rw [← lex, whole]; simp [Cursor.tokens]) eof
  refine ⟨?_, fault⟩
  obtain ⟨front, ends, other⟩ := exists_tokens fault
  rcases List.append_eq_append_iff.mp (ends.symm.trans whole) with
    ⟨more, -, left⟩ | ⟨more, hf, left⟩
  · cases more with
    | nil => exact (List.cons.inj left).2.symm
    | cons => simp [Cursor.tokens] at left
  · cases more with
    | nil => exact (List.cons.inj left).2
    | cons t more =>
        obtain ⟨rfl, -⟩ := List.cons.inj left
        exact absurd eof (other c.current (by simp [hf]))

/-- A program that is read leaves nothing but the end of the text. -/
theorem rest_of_program {c' : Cursor} {body : List Stmt}
    (hc : (lex o.dollarIdentifiers source).cursor = .ok c)
    (h : (Parser.program (lex o.dollarIdentifiers source).nesting).run c = .ok (body, c')) :
    c'.rest = [] := by
  obtain ⟨-, tokens, -⟩ := ended_of_cursor hc
  have settled := program_settled hc
  rw [h] at settled
  obtain ⟨used, taken, -⟩ := settled
  exact (rest_of_eof (tokens.symm.trans taken) (Parser.eof_of_program h)).1

/-- A text with the same tokens up to the one where a text is refused is refused alike. -/
theorem parse_of_grants {used tail : List Token} {t : Token}
    (h : (lex o.dollarIdentifiers source).tokens = used ++ t :: tail)
    (grants : ∀ x tail', x.tokens = used ++ t :: tail' →
      Parser.Grants Parser.program x (.error (.refused d))) :
    parse o source = .error d := by
  obtain ⟨c, hc⟩ : ∃ c, (lex o.dollarIdentifiers source).cursor = .ok c :=
    cursor_of_tokens (by simp [h])
  obtain ⟨-, tokens, -⟩ := ended_of_cursor hc
  rcases grants c tail (tokens.trans h) (lex o.dollarIdentifiers source).nesting with hr | hr
  · exact parse_of_run_refused hc hr
  · have settled := program_settled hc
    rw [hr] at settled
    exact settled.elim

end Texts

/-- The first error wins, whatever comes after it. A text that is read has no fault.
A fault is reported as it is. And where a text is refused for what stands at a token,
that token and those before it, none of which is behind a fault, settle the refusal. -/
theorem first_error_wins (o : Options) (source : String) :
    (∀ body, parse o source = .ok body → (lex o.dollarIdentifiers source).fault = none) ∧
    (∀ d, parse o source = .error d → d.cause.Lexical →
      (lex o.dollarIdentifiers source).fault = some d) ∧
    (∀ d, parse o source = .error d → ¬d.cause.Lexical →
      ∃ before t after, (lex o.dollarIdentifiers source).tokens = before ++ t :: after ∧
        d.line = t.line ∧ d.near = t.text ∧
        ∀ other after', (lex o.dollarIdentifiers other).tokens = before ++ t :: after' →
          parse o other = .error d) := by
  have lexical : ∀ d, (lex o.dollarIdentifiers source).fault = some d → d.cause.Lexical :=
    fun d h => fault_ne_expected h
  cases hc : (lex o.dollarIdentifiers source).cursor with
  | error d =>
      obtain ⟨hp, hf⟩ := parse_of_cursor_error hc
      rw [hp]
      refine ⟨by rintro _ ⟨⟩, ?_, ?_⟩
      · rintro _ ⟨⟩ -
        exact hf
      · rintro _ ⟨⟩ syntactic
        exact absurd (lexical d hf) syntactic
  | ok c =>
      obtain ⟨-, tokens, fault⟩ := ended_of_cursor hc
      have settled := program_settled hc
      match hr : (Parser.program (lex o.dollarIdentifiers source).nesting).run c with
      | .ok (body, c') =>
          rw [hr] at settled
          rw [parse_of_run_ok hc hr]
          refine ⟨?_, by rintro _ ⟨⟩, by rintro _ ⟨⟩⟩
          rintro _ ⟨⟩
          obtain ⟨used, ht, -⟩ := settled
          have mem : c'.current ∈ (lex o.dollarIdentifiers source).tokens := by
            rw [← tokens, ht]
            simp [Cursor.tokens]
          exact fault_eq_none_of_mem mem (Parser.eof_of_program hr)
      | .error (.refused d) =>
          rw [hr] at settled
          rw [parse_of_run_refused hc hr]
          refine ⟨by rintro _ ⟨⟩, ?_, ?_⟩
          · rintro _ ⟨⟩ hd
            rcases settled with hf | ⟨_, t, _, what, -, rfl, -⟩
            · exact fault ▸ hf
            · exact absurd rfl (hd what)
          · rintro _ ⟨⟩ hd
            rcases settled with hf | ⟨used, t, tail, what, ht, rfl, grants⟩
            · exact absurd (lexical d (fault ▸ hf)) hd
            · exact ⟨used, t, tail, tokens ▸ ht, rfl, rfl,
                fun other tail' hother => parse_of_grants hother grants⟩
      | .error .tooDeep =>
          rw [hr] at settled
          exact settled.elim

-- the string that is never closed comes too late
example : parse {} "x = )\ny = \"open" = .error ⟨1, ")", .expected .expression⟩ := by cbv

end ScriptLang
