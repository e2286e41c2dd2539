import ScriptLang.Proofs.Parser.FirstError

/-!
# Progress of the parser

`Moves p c taken r` follows a production operation by operation: from the cursor
`c` it takes the tokens `taken`, each by one call of the lexer for the next one, and
ends in `r`. A production *advances* if it takes tokens from the front, each once,
and never the end of the text; `Advances n p` says that it has taken at least `n` of
them when it answers. This is closed under the ways in which productions are put
together, so it is shown of all of them piece by piece.

A statement and an expression take at least one token, so every loop of the parser
comes to an end, and the lexer is called no more often than it has something to say.
-/

namespace ScriptLang

open Lexer

namespace Parser

variable {α β : Type} {p q : Parser α} {n m fuel : Nat} {t : Token} {place : Place}

/-- From a cursor the production takes these tokens, one after the other, and ends in this
result. Each token is taken by a call of the lexer for the token behind it. -/
inductive Moves : {α : Type} → Parser α → Cursor → List Token → Except Stop (α × Cursor) → Prop
  | pure {α : Type} (a : α) (c : Cursor) : Moves (pure a) c [] (.ok (a, c))
  | throw {α : Type} (stop : Stop) (c : Cursor) : Moves (throw stop : Parser α) c [] (.error stop)
  | peek (c : Cursor) : Moves peek c [] (.ok (c.current, c))
  | advance (c : Cursor) : Moves advance c [c.current] (advance.run c)
  | bind {α β : Type} {p : Parser α} {k : α → Parser β} {c c' : Cursor} {a : α}
      {taken taken' : List Token} {r : Except Stop (β × Cursor)} :
      Moves p c taken (.ok (a, c')) → Moves (k a) c' taken' r →
      Moves (p >>= k) c (taken ++ taken') r
  | bind_error {α β : Type} {p : Parser α} {k : α → Parser β} {c : Cursor}
      {taken : List Token} {stop : Stop} :
      Moves p c taken (.error stop) → Moves (p >>= k) c taken (.error stop)

/-- What a production moves to is what it ends in. -/
theorem Moves.run_eq {c : Cursor} {taken : List Token} {r : Except Stop (α × Cursor)}
    (h : Moves p c taken r) : p.run c = r := by
  induction h with
  | pure | throw | peek | advance => rfl
  | bind _ _ ihp ihk =>
      rw [StateT.run_bind, ihp]
      exact ihk
  | bind_error _ ih =>
      rw [StateT.run_bind, ih]
      rfl

/-- The tokens that were taken stood at the front, none of them was the end of the text, and
with an answer there are at least `n` of them. -/
def Leaves (n : Nat) (c : Cursor) (taken : List Token) : Except Stop (α × Cursor) → Prop
  | .ok (_, c') => n ≤ taken.length ∧ c.tokens = taken ++ c'.tokens ∧ c'.fault = c.fault ∧
      ∀ t ∈ taken, t.kind ≠ .eof
  | .error _ => (∃ left, c.tokens = taken ++ left) ∧ ∀ t ∈ taken, t.kind ≠ .eof

/-- From this cursor the production advances. -/
def AdvancesFrom (n : Nat) (c : Cursor) (p : Parser α) : Prop :=
  ∃ taken, Moves p c taken (p.run c) ∧ Leaves n c taken (p.run c)

/-- The production takes tokens from the front, at least `n` of them before it answers. -/
def Advances (n : Nat) (p : Parser α) : Prop := ∀ c, c.Ended → AdvancesFrom n c p

/-- The same for productions that begin at a given token. -/
def AdvancesAt (t : Token) (n : Nat) (p : Parser α) : Prop :=
  ∀ c, c.Ended → c.current = t → AdvancesFrom n c p

theorem AdvancesAt.ite {b : Prop} [Decidable b] (hp : b → AdvancesAt t n p)
    (hq : ¬b → AdvancesAt t n q) : AdvancesAt t n (if b then p else q) := by
  split
  next h => exact hp h
  next h => exact hq h

/-! ## Putting productions together -/

theorem AdvancesFrom.mono {c : Cursor} (h : AdvancesFrom n c p) (le : m ≤ n) :
    AdvancesFrom m c p := by
  obtain ⟨taken, moves, leaves⟩ := h
  refine ⟨taken, moves, ?_⟩
  match p.run c, leaves with
  | .ok _, leaves => exact ⟨le.trans leaves.1, leaves.2⟩
  | .error _, leaves => exact leaves

/-- One production after another, from a cursor. -/
theorem AdvancesFrom.bind {c : Cursor} {k : α → Parser β} (hc : c.Ended)
    (hp : AdvancesFrom n c p) (hk : ∀ a, Advances m (k a)) : AdvancesFrom (n + m) c (p >>= k) := by
  obtain ⟨taken, moves, leaves⟩ := hp
  unfold AdvancesFrom
  rw [StateT.run_bind]
  match hr : p.run c with
  | .error stop =>
      rw [hr] at moves leaves
      exact ⟨taken, moves.bind_error, leaves⟩
  | .ok (a, c₁) =>
      rw [hr] at moves leaves
      obtain ⟨least, before, fault, others⟩ := leaves
      obtain ⟨taken', moves', leaves'⟩ := hk a c₁ (hc.of_append before fault)
      refine ⟨taken ++ taken', moves.bind moves', ?_⟩
      change Leaves (n + m) c (taken ++ taken') ((k a).run c₁)
      match hr' : (k a).run c₁ with
      | .error stop =>
          rw [hr'] at leaves'
          obtain ⟨⟨left, after⟩, others'⟩ := leaves'
          refine ⟨⟨left, ?_⟩, List.forall_mem_append.mpr ⟨others, others'⟩⟩
          rw [before, after, List.append_assoc]
      | .ok (b, c₂) =>
          rw [hr'] at leaves'
          obtain ⟨least', after, fault', others'⟩ := leaves'
          refine ⟨?_, ?_, fault'.trans fault, List.forall_mem_append.mpr ⟨others, others'⟩⟩
          · rw [List.length_append]
            exact Nat.add_le_add least least'
          · rw [before, after, List.append_assoc]

theorem Advances.at (h : Advances n p) (t : Token) : AdvancesAt t n p := fun c hc _ => h c hc

namespace Advances

theorem any (h : Advances n p) : Advances 0 p := fun c hc => (h c hc).mono (Nat.zero_le n)

theorem pure (a : α) : Advances 0 (pure a) :=
  fun c _ => ⟨[], .pure a c, Nat.zero_le _, rfl, rfl, nofun⟩

theorem throw (stop : Stop) : Advances n (throw stop : Parser α) :=
  fun c _ => ⟨[], .throw stop c, ⟨c.tokens, rfl⟩, nofun⟩

/-- What the first production has taken is taken, whatever comes after it. -/
theorem bind {k : α → Parser β} (hp : Advances (m + n) p) (hk : ∀ a, Advances 0 (k a)) :
    Advances n (p >>= k) :=
  fun c hc => ((hp c hc).bind hc hk).mono (Nat.le_add_left n m)

/-- What the second production takes is taken, whatever comes before it. -/
theorem bind_last {k : α → Parser β} (hp : Advances 0 p) (hk : ∀ a, Advances n (k a)) :
    Advances n (p >>= k) :=
  fun c hc => ((hp c hc).bind hc hk).mono (Nat.zero_add n).ge

theorem ite {b : Prop} [Decidable b] (hp : Advances n p) (hq : Advances n q) :
    Advances n (if b then p else q) := by
  split
  · exact hp
  · exact hq

/-! ## The cursor -/

/-- A production that looks at the current token first. -/
theorem peek {k : Token → Parser α} (h : ∀ t, AdvancesAt t n (k t)) : Advances n (peek >>= k) := by
  intro c hc
  obtain ⟨taken, moves, leaves⟩ := h c.current c hc rfl
  exact ⟨taken, .bind (.peek c) moves, leaves⟩

theorem refuse (what : Expectation) : Advances n (refuse what : Parser α) :=
  peek fun t => (throw _).at t

theorem refuse_bind {what : Expectation} {k : α → Parser β} :
    Advances n (Parser.refuse what >>= k) :=
  fun c _ => ⟨[], .bind_error (.bind (.peek c) (.throw _ c)), ⟨c.tokens, rfl⟩, nofun⟩

theorem tooDeep : Advances n (tooDeep : Parser α) := throw _

end Advances

/-- Taking the token that was looked at, which is not the end of the text. What comes after it
has one token less to take. -/
theorem AdvancesAt.advance {k : Token → Parser α} (eof : t.kind ≠ .eof)
    (hk : ∀ t, Advances (n - 1) (k t)) : AdvancesAt t n (advance >>= k) := by
  rintro c hc rfl
  have taken : AdvancesFrom 1 c Parser.advance := by
    refine ⟨[c.current], .advance c, ?_⟩
    match hr : Parser.advance.run c with
    | .error stop => exact ⟨⟨c.rest, rfl⟩, by simpa using eof⟩
    | .ok (t, c') =>
        obtain ⟨after, fault⟩ := tokens_of_advance hc eof hr
        exact ⟨le_rfl, after, fault, by simpa using eof⟩
  exact (taken.bind hc hk).mono (Nat.sub_le_iff_le_add'.mp le_rfl)

namespace Advances

theorem atLexeme (text : String) : Advances 0 (atLexeme text) := peek fun t => (pure _).at t

theorem atNewline : Advances 0 atNewline := peek fun t => (pure _).at t

theorem atBlockEnd : Advances 0 atBlockEnd := peek fun t => (pure _).at t

/-- A token is taken or left. -/
theorem eat {text : String} (taken : Advances (n - 1) p) (left : Advances n q) :
    Advances n (eat text >>= fun found => if found = true then p else q) := by
  unfold Parser.eat Parser.atLexeme
  simp only [bind_assoc, pure_bind]
  refine peek fun t => ?_
  split
  next is =>
    simp only [bind_assoc, pure_bind, if_true]
    refine .advance ?_ fun _ => taken
    intro eof
    simp [Token.is, eof] at is
  next =>
    simp only [pure_bind, Bool.false_eq_true, if_false]
    exact left.at t

theorem expect (text : String) : Advances 1 (expect text) := eat (pure ()) (refuse _)

theorem expectNewline : Advances 1 expectNewline := by
  unfold Parser.expectNewline Parser.atNewline
  simp only [bind_assoc, pure_bind]
  refine peek fun t => .ite (fun newline => .advance ?_ fun _ => pure ()) fun _ => (refuse _).at t
  intro eof
  simp [eof] at newline

theorem skipNewline : Advances 0 skipNewline := by
  unfold Parser.skipNewline Parser.atNewline
  simp only [bind_assoc, pure_bind]
  refine peek fun t => .ite (fun newline => .advance ?_ fun _ => pure ()) fun _ => (pure ()).at t
  intro eof
  simp [eof] at newline

theorem name : Advances 1 name := by
  refine peek fun t => .ite (fun word => .advance ?_ fun t => pure t.text) fun _ => (refuse _).at t
  intro eof
  simp [Token.isName, eof] at word

theorem memberName : Advances 1 memberName := by
  refine peek fun t => .ite (fun word => .advance ?_ fun t => pure t.text) fun _ => (refuse _).at t
  intro eof
  simp [eof] at word

end Advances

/-! ## Expressions -/

/-- With this much nesting the productions of expressions advance; those that answer with an
expression of their own take a token. -/
structure AdvancingExpressions (fuel : Nat) : Prop where
  expression : ∀ least, Advances 1 (expression fuel least)
  climb : ∀ least lhs, Advances 0 (climb fuel least lhs)
  operand : Advances 1 (operand fuel)
  suffixes : ∀ e, Advances 0 (suffixes fuel e)
  subscript : ∀ target, Advances 1 (subscript fuel target)
  term : Advances 1 (term fuel)
  elements : ∀ close, Advances 1 (elements fuel close)
  entries : Advances 1 (entries fuel)

namespace AdvancingExpressions

theorem zero : AdvancingExpressions 0 where
  expression _ := .tooDeep
  climb _ _ := .tooDeep
  operand := .tooDeep
  suffixes _ := .tooDeep
  subscript _ := .tooDeep
  term := .tooDeep
  elements _ := .tooDeep
  entries := .tooDeep

variable (h : AdvancingExpressions fuel)

include h

theorem expression_succ (least : Nat) : Advances 1 (Parser.expression (fuel + 1) least) :=
  .bind h.operand fun lhs => h.climb least lhs

theorem climb_succ (least : Nat) (lhs : Expr) : Advances 0 (Parser.climb (fuel + 1) least lhs) := by
  unfold Parser.climb
  refine .peek fun t => ?_
  cases hc : Connective.ofToken? t with
  | none => exact (Advances.pure lhs).at t
  | some c =>
      refine .ite (fun _ => (Advances.pure lhs).at t) fun _ => .ite (fun _ => ?_) fun _ => ?_
      · exact Advances.refuse_bind.at t
      · refine .advance (Connective.not_eof_of_ofToken? hc) fun _ => ?_
        exact .bind (h.expression _) fun rhs => h.climb _ _

theorem operand_succ : Advances 1 (Parser.operand (fuel + 1)) := by
  unfold Parser.operand
  refine .peek fun t => ?_
  cases hop : UnaryOp.ofToken? t with
  | some op =>
      refine .advance (UnaryOp.not_eof_of_ofToken? hop) fun _ => ?_
      exact .bind h.operand fun e => .pure _
  | none => exact (Advances.bind h.term fun e => h.suffixes e).at t

theorem suffixes_succ (e : Expr) : Advances 0 (Parser.suffixes (fuel + 1) e) := by
  unfold Parser.suffixes
  refine .eat ?_ (.eat ?_ (.eat ?_ (.pure e)))
  · exact .bind .skipNewline fun _ => .bind (h.elements _) fun args => h.suffixes _
  · exact .bind .memberName fun name => h.suffixes _
  · exact .bind (h.subscript e) fun e => h.suffixes e

theorem subscript_succ (target : Expr) : Advances 1 (Parser.subscript (fuel + 1) target) := by
  have bound (text : String) {k : Expr → Parser Expr} (hk : ∀ e, Advances 1 (k e)) :
      Advances 1 (Parser.atLexeme text >>= fun found =>
        if found = true then pure .omitted >>= k else Parser.expression fuel 0 >>= k) :=
    .bind_last (.atLexeme text) fun _ => .ite (.bind_last (.pure _) hk)
      (.bind_last (h.expression 0).any hk)
  unfold Parser.subscript
  refine bound ":" fun start => .eat ?_ ?_
  · exact (bound "]" fun stop => .bind (.expect _) fun _ => .pure _).any
  · exact .bind (.expect _) fun _ => .pure _

theorem term_succ : Advances 1 (Parser.term (fuel + 1)) := by
  unfold Parser.term
  refine .peek fun t => .ite (fun quote => .advance ?_ fun t => .pure _) fun _ => ?_
  · rw [quote]
    rintro ⟨⟩
  refine .ite (fun number => .advance ?_ fun t => .pure _) fun _ => ?_
  · rw [number]
    rintro ⟨⟩
  refine .ite (fun name => .advance ?_ fun t => .pure _) fun _ => ?_
  · intro eof
    simp [Token.isName, eof] at name
  refine Advances.at ?_ t
  refine .eat ?_ (.eat ?_ (.eat ?_ (.refuse _)))
  · exact .bind .skipNewline fun _ => .bind (h.expression 0) fun e => .bind .skipNewline fun _ =>
      .bind (.expect _) fun _ => .pure e
  · exact .bind .skipNewline fun _ => .bind (h.elements _) fun items => .pure _
  · exact .bind .skipNewline fun _ => .bind h.entries fun entries => .pure _

theorem elements_succ (close : String) : Advances 1 (Parser.elements (fuel + 1) close) := by
  unfold Parser.elements
  refine .eat (.pure _) (.bind (h.expression 0) fun e => .bind .skipNewline fun _ => .eat ?_ ?_)
  · exact .bind .skipNewline fun _ => .bind (h.elements close) fun rest => .pure _
  · exact .bind (.expect _) fun _ => .pure _

theorem entries_succ : Advances 1 (Parser.entries (fuel + 1)) := by
  unfold Parser.entries
  refine .eat (.pure _) (.bind (h.expression 0) fun key => .bind (.expect _) fun _ => ?_)
  refine .bind (h.expression 0) fun value => .bind .skipNewline fun _ => .eat ?_ ?_
  · exact .bind .skipNewline fun _ => .bind h.entries fun rest => .pure _
  · exact .bind (.expect _) fun _ => .pure _

theorem succ : AdvancingExpressions (fuel + 1) where
  expression := h.expression_succ
  climb := h.climb_succ
  operand := h.operand_succ
  suffixes := h.suffixes_succ
  subscript := h.subscript_succ
  term := h.term_succ
  elements := h.elements_succ
  entries := h.entries_succ

end AdvancingExpressions

theorem advancingExpressions (fuel : Nat) : AdvancingExpressions fuel := by
  induction fuel with
  | zero => exact .zero
  | succ fuel ih => exact ih.succ

namespace Advances

theorem expression (fuel least : Nat) : Advances 1 (expression fuel least) :=
  (advancingExpressions fuel).expression least

theorem arguments (fuel : Nat) : Advances 1 (arguments fuel) := by
  induction fuel with
  | zero => exact tooDeep
  | succ fuel ih =>
      unfold Parser.arguments
      refine bind (expression fuel 0) fun e => eat ?_ (pure _)
      exact bind ih fun rest => pure _

/-! ## Parts of statements -/

theorem names (fuel : Nat) : Advances 1 (names fuel) := by
  induction fuel with
  | zero => exact tooDeep
  | succ fuel ih =>
      unfold Parser.names
      refine bind name fun first => eat ?_ (pure _)
      exact bind ih fun rest => pure _

theorem parameters (fuel : Nat) : Advances 1 (parameters fuel) := by
  unfold Parser.parameters
  refine bind (expect _) fun _ => eat (pure _) ?_
  exact bind (names fuel) fun params => bind (expect _) fun _ => pure _

theorem loopHeader : Advances 1 loopHeader := by
  unfold Parser.loopHeader
  refine bind name fun first => eat ?_ ?_
  · exact bind name fun second => bind (expect _) fun _ => pure _
  · exact bind (expect _) fun _ => pure _

theorem expressionStatement (fuel : Nat) : Advances 1 (expressionStatement fuel) := by
  unfold Parser.expressionStatement
  refine bind (expression fuel 0) fun e => eat ?_ ?_
  · refine bind name fun callee => peek fun t => Advances.at (ite ?_ ?_) t
    · exact bind (arguments fuel) fun more => pure _
    · exact bind (pure _) fun more => pure _
  · refine peek fun t => Advances.at (ite ?_ (pure _)) t
    exact bind (arguments fuel) fun args => pure _

end Advances

theorem AdvancesAt.returnStatement (ht : t.kind ≠ .eof) (fuel : Nat) :
    AdvancesAt t 1 (returnStatement fuel place) := by
  unfold Parser.returnStatement
  refine .ite (fun _ => .advance ht fun _ => ?_) fun _ => Advances.refuse_bind.at t
  refine .bind .atNewline fun _ => .ite (.pure _) ?_
  exact .bind (.expression fuel 0) fun value => .pure _

theorem AdvancesAt.jump (ht : t.kind ≠ .eof) (word : String) (s : Stmt) :
    AdvancesAt t 1 (jump word place s) := by
  unfold Parser.jump
  exact .ite (fun _ => .advance ht fun _ => .pure s) fun _ => Advances.refuse_bind.at t

/-! ## Statements -/

/-- With this much nesting the productions of statements advance. -/
structure AdvancingStatements (fuel : Nat) : Prop where
  block : ∀ place, Advances 0 (block fuel place)
  statement : ∀ place, Advances 1 (statement fuel place)
  loopBody : ∀ place, Advances 0 (loopBody fuel place)
  alternative : ∀ place, Advances 1 (alternative fuel place)
  arms : ∀ place, Advances 1 (arms fuel place)

namespace AdvancingStatements

theorem zero : AdvancingStatements 0 where
  block _ := .tooDeep
  statement _ := .tooDeep
  loopBody _ := .tooDeep
  alternative _ := .tooDeep
  arms _ := .tooDeep

variable (h : AdvancingStatements fuel)

include h

theorem block_succ (place : Place) : Advances 0 (Parser.block (fuel + 1) place) := by
  unfold Parser.block
  refine .bind .atBlockEnd fun _ => .ite (.pure _) ?_
  refine .bind (h.statement place) fun s => .bind .expectNewline fun _ => ?_
  exact .bind (h.block place) fun rest => .pure _

theorem loopBody_succ (place : Place) : Advances 0 (Parser.loopBody (fuel + 1) place) := by
  unfold Parser.loopBody
  exact .bind (h.block _) fun body => .bind (.expect _) fun _ => .pure _

theorem alternative_succ (place : Place) :
    Advances 1 (Parser.alternative (fuel + 1) place) := by
  unfold Parser.alternative
  refine .eat ?_ (.eat ?_ ?_)
  · refine .bind (.expression fuel 0) fun test => .bind .expectNewline fun _ => ?_
    exact .bind (h.block place) fun body => .bind (h.alternative place) fun rest => .pure _
  · exact .bind .expectNewline fun _ => .bind (h.block place) fun body =>
      .bind (.expect _) fun _ => .pure _
  · exact .bind (.expect _) fun _ => .pure _

theorem arms_succ (place : Place) : Advances 1 (Parser.arms (fuel + 1) place) := by
  unfold Parser.arms
  refine .eat ?_ (.eat ?_ ?_)
  · refine .bind (.arguments fuel) fun patterns => .bind .expectNewline fun _ => ?_
    exact .bind (h.block place) fun body => .bind (h.arms place) fun rest => .pure _
  · exact .bind .expectNewline fun _ => .bind (h.block place) fun body =>
      .bind (.expect _) fun _ => .pure _
  · exact .bind (.expect _) fun _ => .pure _

theorem statement_succ (place : Place) : Advances 1 (Parser.statement (fuel + 1) place) := by
  unfold Parser.statement
  refine .peek fun t => .ite (fun _ => (Advances.expressionStatement fuel).at t) fun word => ?_
  have ht : t.kind ≠ .eof := by
    intro eof
    simp [eof] at word
  split
  · refine .advance ht fun _ => .bind (.expression fuel 0) fun test => ?_
    refine .bind .expectNewline fun _ => .bind (h.block place) fun body => ?_
    exact .bind (h.alternative place) fun rest => .pure _
  · refine .advance ht fun _ => .bind (.expression fuel 0) fun test => ?_
    exact .bind .expectNewline fun _ => .bind (h.loopBody place) fun body => .pure _
  · refine .advance ht fun _ => .bind (.expression fuel 0) fun test => ?_
    exact .bind .expectNewline fun _ => .bind (h.loopBody place) fun body => .pure _
  · refine .advance ht fun _ => .bind .loopHeader fun header => ?_
    refine .bind (.expression fuel 0) fun iterable => .bind .expectNewline fun _ => ?_
    exact .bind (h.loopBody place) fun body => .pure _
  · refine .advance ht fun _ => .bind (.expression fuel 0) fun subject => ?_
    exact .bind .expectNewline fun _ => .bind (h.arms place) fun arms => .pure _
  · refine .advance ht fun _ => .bind .name fun name => .bind (.parameters fuel) fun params => ?_
    refine .bind .expectNewline fun _ => .bind (h.block _) fun body => ?_
    exact .bind (.expect _) fun _ => .pure _
  · exact .returnStatement ht fuel
  · exact .advance ht fun _ => .bind (.names fuel) fun names => .pure _
  · exact .jump ht _ _
  · exact .jump ht _ _
  · exact .advance ht fun _ => .bind (.expression fuel 0) fun test => .pure _
  · exact .advance ht fun _ => .bind (.expression fuel 0) fun value => .pure _
  · refine .advance ht fun _ => .bind .expectNewline fun _ => .bind (h.block place) fun body => ?_
    refine .bind (.expect _) fun _ => .bind .name fun name => ?_
    refine .bind .expectNewline fun _ => .bind (h.block place) fun handler => ?_
    exact .bind (.expect _) fun _ => .pure _
  · exact (Advances.expressionStatement fuel).at t

theorem succ : AdvancingStatements (fuel + 1) where
  block := h.block_succ
  statement := h.statement_succ
  loopBody := h.loopBody_succ
  alternative := h.alternative_succ
  arms := h.arms_succ

end AdvancingStatements

theorem advancingStatements (fuel : Nat) : AdvancingStatements fuel := by
  induction fuel with
  | zero => exact .zero
  | succ fuel ih => exact ih.succ

theorem Advances.program (fuel : Nat) : Advances 0 (program fuel) := by
  unfold Parser.program
  refine .bind .skipNewline fun _ => .bind ((advancingStatements fuel).block {}) fun body => ?_
  exact .peek fun t => Advances.at (.ite (.pure _) .refuse_bind) t

/-! ## Texts -/

/-- From this cursor, an answer of the production comes after at least one token. The tokens
taken stand at the front, and none of them is the end of the text. -/
def Consumes (c : Cursor) (p : Parser α) : Prop :=
  ∀ a c', p.run c = .ok (a, c') → ∃ taken, Moves p c taken (.ok (a, c')) ∧ taken ≠ [] ∧
    c.tokens = taken ++ c'.tokens ∧ ∀ t ∈ taken, t.kind ≠ .eof

theorem Advances.consumes (h : Advances 1 p) {c : Cursor} (hc : c.Ended) : Consumes c p := by
  intro a c' hr
  obtain ⟨taken, moves, leaves⟩ := h c hc
  rw [hr] at moves leaves
  obtain ⟨least, front, -, others⟩ := leaves
  exact ⟨taken, moves, List.ne_nil_of_length_pos least, front, others⟩

/-- What stands for a part of a program takes a token before it answers. -/
structure Progress (fuel : Nat) (c : Cursor) : Prop where
  statement : ∀ place, Consumes c (statement fuel place)
  expression : ∀ least, Consumes c (expression fuel least)
  operand : Consumes c (operand fuel)
  suffixed : Consumes c (term fuel >>= suffixes fuel)
  term : Consumes c (term fuel)

theorem progress (fuel : Nat) {c : Cursor} (hc : c.Ended) : Progress fuel c where
  statement place := ((advancingStatements fuel).statement place).consumes hc
  expression least := (Advances.expression fuel least).consumes hc
  operand := (advancingExpressions fuel).operand.consumes hc
  suffixed := Advances.consumes (.bind (advancingExpressions fuel).term
    (advancingExpressions fuel).suffixes) hc
  term := (advancingExpressions fuel).term.consumes hc

/-- The production comes to an end from this cursor within its nesting. -/
def Ends (c : Cursor) (p : Parser α) : Prop := p.run c ≠ .error .tooDeep

theorem Prompt.ends {q : Nat → Parser α} (h : Prompt n m p q) {c : Cursor} (hc : c.Ended)
    (le : c.tokens.length ≤ n) : Ends c p := by
  intro deep
  have settled := h c hc le
  rw [deep] at settled
  exact settled

/-- Whatever repeats or recurs comes to an end. -/
structure Termination (fuel : Nat) (c : Cursor) : Prop where
  block : ∀ place, Ends c (block fuel place)
  statement : ∀ place, Ends c (statement fuel place)
  alternative : ∀ place, Ends c (alternative fuel place)
  arms : ∀ place, Ends c (arms fuel place)
  names : Ends c (names fuel)
  arguments : Ends c (arguments fuel)
  expression : ∀ least, Ends c (expression fuel least)
  climb : ∀ least lhs, Ends c (climb fuel least lhs)
  operand : Ends c (operand fuel)
  suffixes : ∀ e, Ends c (suffixes fuel e)
  term : Ends c (term fuel)
  elements : ∀ close, Ends c (elements fuel close)
  entries : Ends c (entries fuel)

theorem termination {c : Cursor} (hc : c.Ended) (enough : 8 * c.tokens.length ≤ fuel) :
    Termination fuel c where
  block place := ((promptStatements fuel).block _ place (by omega)).ends hc le_rfl
  statement place := ((promptStatements fuel).statement _ place (by omega)).ends hc le_rfl
  alternative place := ((promptStatements fuel).alternative _ place (by omega)).ends hc le_rfl
  arms place := ((promptStatements fuel).arms _ place (by omega)).ends hc le_rfl
  names := (Prompt.names (by omega)).ends hc le_rfl
  arguments := (Prompt.arguments (by omega)).ends hc le_rfl
  expression least := (Prompt.expression least (by omega)).ends hc le_rfl
  climb least lhs := ((promptExpressions fuel).climb _ least lhs (by omega)).ends hc le_rfl
  operand := ((promptExpressions fuel).operand _ (by omega)).ends hc le_rfl
  suffixes e := ((promptExpressions fuel).suffixes _ e (by omega)).ends hc le_rfl
  term := ((promptExpressions fuel).term _ (by omega)).ends hc le_rfl
  elements close := ((promptExpressions fuel).elements _ close (by omega)).ends hc le_rfl
  entries := ((promptExpressions fuel).entries _ (by omega)).ends hc le_rfl

end Parser

namespace Lexed

/-- The cursor stands somewhere in the text. -/
def Reaches (l : Lexed) (c : Cursor) : Prop :=
  (∃ passed, l.tokens = passed ++ c.tokens) ∧ c.fault = l.fault

/-- What reading the text yields: its tokens, and the fault that ends them if there is one. -/
def items (l : Lexed) : Nat := l.tokens.length + l.fault.toList.length

/-- The tokens that parsing the text takes. The lexer is called once for the first token, and
then once for each token that is taken. Where the first call fails there is nothing to take. -/
inductive Takes (l : Lexed) : List Token → Prop
  | fault {d : Diagnostic} : l.cursor = .error d → l.parse = .error d → Takes l []
  | answer {start c : Cursor} {body : List Stmt} {taken : List Token} :
      l.cursor = .ok start → Parser.Moves (Parser.program l.nesting) start taken (.ok (body, c)) →
      l.parse = .ok body → Takes l taken
  | refusal {start : Cursor} {d : Diagnostic} {taken : List Token} :
      l.cursor = .ok start →
      Parser.Moves (Parser.program l.nesting) start taken (.error (.refused d)) →
      l.parse = .error d → Takes l taken

end Lexed

section Texts

variable {dollar : Bool} {source : String} {c : Cursor}

theorem ended_of_reaches (h : (lex dollar source).Reaches c) : c.Ended := by
  obtain ⟨⟨passed, whole⟩, fault⟩ := h
  obtain ⟨start, hs⟩ : ∃ start, (lex dollar source).cursor = .ok start :=
    cursor_of_tokens (by simp [whole, Cursor.tokens])
  obtain ⟨ended, tokens, fault'⟩ := ended_of_cursor hs
  exact ended.of_append (tokens.trans whole) (fault.trans fault'.symm)

/-- Tokens before the end of the text leave room for one more item. -/
theorem length_lt_items {taken left : List Token} (h : (lex dollar source).tokens = taken ++ left)
    (others : ∀ t ∈ taken, t.kind ≠ .eof) : taken.length < (lex dollar source).items := by
  have total := congrArg List.length h
  rw [List.length_append] at total
  rw [Lexed.items]
  cases fault : (lex dollar source).fault with
  | some d =>
      rw [Option.toList_some, List.length_singleton]
      omega
  | none =>
      obtain ⟨t, last, eof⟩ := getLast?_tokensFrom dollar 1 source.toList fault
      change t ∈ (lex dollar source).tokens.getLast? at last
      have notNil : left ≠ [] := by
        rintro rfl
        rw [List.append_nil] at h
        rw [h] at last
        exact others t (List.mem_of_getLast? last) eof
      have positive := List.length_pos_iff.mpr notNil
      omega

/-- Parsing a text takes tokens from its front, and never its end. -/
theorem exists_takes (o : Options) (source : String) :
    ∃ taken left, (lex o.dollarIdentifiers source).Takes taken ∧
      (lex o.dollarIdentifiers source).tokens = taken ++ left ∧ ∀ t ∈ taken, t.kind ≠ .eof := by
  cases hc : (lex o.dollarIdentifiers source).cursor with
  | error d => exact ⟨[], _, .fault hc (parse_of_cursor_error hc).1, rfl, nofun⟩
  | ok start =>
      obtain ⟨ended, tokens, -⟩ := ended_of_cursor hc
      obtain ⟨taken, moves, leaves⟩ :=
        Parser.Advances.program (lex o.dollarIdentifiers source).nesting start ended
      rw [← tokens]
      match hr : (Parser.program (lex o.dollarIdentifiers source).nesting).run start with
      | .ok (body, c) =>
          rw [hr] at moves leaves
          obtain ⟨-, front, -, others⟩ := leaves
          exact ⟨taken, c.tokens, .answer hc moves (parse_of_run_ok hc hr), front, others⟩
      | .error (.refused d) =>
          rw [hr] at moves leaves
          obtain ⟨⟨left, front⟩, others⟩ := leaves
          exact ⟨taken, left, .refusal hc moves (parse_of_run_refused hc hr), front, others⟩
      | .error .tooDeep =>
          have settled := program_settled hc
          rw [hr] at settled
          exact settled.elim

end Texts

/-- The parser always makes progress. Wherever it stands in a text, a statement or an
expression that is read has taken at least one token; tokens are taken from the front, each
once, and the end of the text never is. So everything that repeats comes to an end, with
nesting in proportion to the tokens that are left. Parsing the whole text ends as well, and
calls the lexer once for the first token and once for each token that it takes, which are no
more calls than the text has items. -/
theorem parser_progress (o : Options) (source : String) :
    (∀ c, (lex o.dollarIdentifiers source).Reaches c →
      (∀ fuel, Parser.Progress fuel c) ∧
      ∀ fuel, 8 * c.tokens.length ≤ fuel → Parser.Termination fuel c) ∧
    ∃ taken, (lex o.dollarIdentifiers source).Takes taken ∧
      taken <+: (lex o.dollarIdentifiers source).tokens ∧ (∀ t ∈ taken, t.kind ≠ .eof) ∧
      taken.length + 1 ≤ (lex o.dollarIdentifiers source).items := by
  constructor
  · intro c reached
    have ended := ended_of_reaches reached
    exact ⟨fun fuel => Parser.progress fuel ended, fun fuel enough =>
      Parser.termination ended enough⟩
  · obtain ⟨taken, left, takes, front, others⟩ := exists_takes o source
    exact ⟨taken, takes, ⟨left, front.symm⟩, others, length_lt_items front others⟩

end ScriptLang
