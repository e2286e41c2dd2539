import ScriptLang.Proofs.Parser.FirstError
import ScriptLang.Proofs.Program.Lines

/-!
# Productions and lines

No production asks on which line a token stands. It hands the lines on: to an assertion,
and to the diagnostic when it refuses the text. So if the lines of the tokens are
renumbered, the same is answered with its lines renumbered.

`Follows f g p q` says this of a production `p` with answers renumbered by `g`; the
production `q` goes on after answers that are renumbered already. Most answers have no
lines, and their productions are `Steady`.
-/

namespace ScriptLang

/-! ## Renumbering -/

/-- The token on a renumbered line. -/
def Token.mapLine (f : Nat → Nat) (t : Token) : Token := { t with line := f t.line }

/-- The diagnostic with its line renumbered. -/
def Diagnostic.mapLine (f : Nat → Nat) (d : Diagnostic) : Diagnostic := { d with line := f d.line }

/-- The cursor with all lines renumbered. -/
def Cursor.mapLines (f : Nat → Nat) (c : Cursor) : Cursor :=
  ⟨c.current.mapLine f, c.rest.map (Token.mapLine f), c.fault.map (Diagnostic.mapLine f)⟩

/-- The tokens with all lines renumbered. -/
def Lexed.mapLines (f : Nat → Nat) (l : Lexed) : Lexed :=
  ⟨l.tokens.map (Token.mapLine f), l.fault.map (Diagnostic.mapLine f)⟩

/-- The reason with its line renumbered. -/
def Stop.mapLine (f : Nat → Nat) : Stop → Stop
  | .refused d => .refused (d.mapLine f)
  | .tooDeep => .tooDeep

section Renumbering

variable (f : Nat → Nat) (t : Token)

@[simp] theorem Token.mapLine_kind : (t.mapLine f).kind = t.kind := rfl

@[simp] theorem Token.mapLine_text : (t.mapLine f).text = t.text := rfl

@[simp] theorem Connective.ofToken?_mapLine : ofToken? (t.mapLine f) = ofToken? t := rfl

@[simp] theorem UnaryOp.ofToken?_mapLine : ofToken? (t.mapLine f) = ofToken? t := rfl

end Renumbering

namespace Parser

variable {α β : Type} {f : Nat → Nat} {g : α → α} {g' : β → β} {p q : Parser α} {fuel : Nat}

/-- A result with its lines renumbered. -/
def renumbered (f : Nat → Nat) (g : α → α) :
    Except Stop (α × Cursor) → Except Stop (α × Cursor)
  | .ok (a, c) => .ok (g a, c.mapLines f)
  | .error e => .error (e.mapLine f)

/-- On renumbered lines, `q` has the result of `p` with its lines renumbered. -/
def Follows (f : Nat → Nat) (g : α → α) (p q : Parser α) : Prop :=
  ∀ c : Cursor, q.run (c.mapLines f) = renumbered f g (p.run c)

/-- The production follows the lines with an answer that has none. -/
def Steady (f : Nat → Nat) (p : Parser α) : Prop := Follows f id p p

namespace Follows

theorem pure (a : α) : Follows f g (pure a) (pure (g a)) := fun _ => rfl

/-- After an answer with lines, what goes on sees the lines renumbered. -/
theorem bind_mapped {k k' : α → Parser β} (hp : Follows f g p q)
    (hk : ∀ a, Follows f g' (k a) (k' (g a))) : Follows f g' (p >>= k) (q >>= k') := by
  intro c
  rw [StateT.run_bind, StateT.run_bind, hp c]
  match p.run c with
  | .ok (a, c') => exact hk a c'
  | .error e => rfl

theorem bind {k k' : α → Parser β} (hp : Steady f p) (hk : ∀ a, Follows f g' (k a) (k' a)) :
    Follows f g' (p >>= k) (p >>= k') :=
  bind_mapped hp hk

theorem ite {b : Prop} [Decidable b] {p' q' : Parser α} (hp : Follows f g p q)
    (hq : Follows f g p' q') : Follows f g (if b then p else p') (if b then q else q') := by
  split
  · exact hp
  · exact hq

theorem refuse (what : Expectation) : Follows f g (refuse what) (refuse what) := fun _ => rfl

theorem tooDeep : Follows f g (tooDeep : Parser α) tooDeep := fun _ => rfl

/-! ## The cursor -/

/-- Looking at the current token. -/
theorem peek {k k' : Token → Parser α} (h : ∀ t, Follows f g (k t) (k' (t.mapLine f))) :
    Follows f g (peek >>= k) (peek >>= k') :=
  fun c => h c.current c

/-- Taking the current token. -/
theorem advance {k k' : Token → Parser α} (h : ∀ t, Follows f g (k t) (k' (t.mapLine f))) :
    Follows f g (advance >>= k) (advance >>= k') := by
  refine bind_mapped (g := Token.mapLine f) ?_ h
  rintro ⟨current, rest, fault⟩
  cases rest with
  | cons next rest => rfl
  | nil =>
      cases fault with
      | none => rfl
      | some d => rfl

theorem atLexeme (text : String) : Steady f (atLexeme text) := .peek fun _ => .pure _

theorem atNewline : Steady f atNewline := .peek fun _ => .pure _

theorem atBlockEnd : Steady f atBlockEnd := .peek fun _ => .pure _

theorem eat (text : String) : Steady f (eat text) :=
  .bind (.atLexeme text) fun _ => .ite (.advance fun _ => .pure _) (.pure _)

theorem expect (text : String) : Steady f (expect text) :=
  .bind (.eat text) fun _ => .ite (.pure _) (.refuse _)

theorem expectNewline : Steady f expectNewline :=
  .bind .atNewline fun _ => .ite (.advance fun _ => .pure _) (.refuse _)

theorem skipNewline : Steady f skipNewline :=
  .bind .atNewline fun _ => .ite (.advance fun _ => .pure _) (.pure _)

theorem name : Steady f name :=
  .peek fun _ => .ite (.advance fun _ => .pure _) (.refuse _)

theorem memberName : Steady f memberName :=
  .peek fun _ => .ite (.advance fun _ => .pure _) (.refuse _)

end Follows

/-! ## Expressions -/

/-- With this much nesting, the productions of expressions are steady. -/
structure SteadyExpressions (f : Nat → Nat) (fuel : Nat) : Prop where
  expression : ∀ least, Steady f (expression fuel least)
  climb : ∀ least lhs, Steady f (climb fuel least lhs)
  operand : Steady f (operand fuel)
  suffixes : ∀ e, Steady f (suffixes fuel e)
  subscript : ∀ target, Steady f (subscript fuel target)
  term : Steady f (term fuel)
  elements : ∀ close, Steady f (elements fuel close)
  entries : Steady f (entries fuel)

namespace SteadyExpressions

theorem zero : SteadyExpressions f 0 where
  expression _ := .tooDeep
  climb _ _ := .tooDeep
  operand := .tooDeep
  suffixes _ := .tooDeep
  subscript _ := .tooDeep
  term := .tooDeep
  elements _ := .tooDeep
  entries := .tooDeep

variable (h : SteadyExpressions f fuel)

include h

theorem expression_succ (least : Nat) : Steady f (Parser.expression (fuel + 1) least) :=
  .bind h.operand fun lhs => h.climb least lhs

theorem climb_succ (least : Nat) (lhs : Expr) : Steady f (Parser.climb (fuel + 1) least lhs) := by
  unfold Parser.climb
  refine .peek fun t => ?_
  rw [Connective.ofToken?_mapLine]
  cases Connective.ofToken? t with
  | none => exact .pure lhs
  | some c =>
      refine .ite (.pure lhs) (.ite (.bind (.refuse _) fun _ => ?_) ?_)
      all_goals exact .advance fun _ => .bind (h.expression _) fun rhs => h.climb _ _

theorem operand_succ : Steady f (Parser.operand (fuel + 1)) := by
  unfold Parser.operand
  refine .peek fun t => ?_
  rw [UnaryOp.ofToken?_mapLine]
  cases UnaryOp.ofToken? t with
  | some op => exact .advance fun _ => .bind h.operand fun e => .pure _
  | none => exact .bind h.term fun e => h.suffixes e

theorem suffixes_succ (e : Expr) : Steady f (Parser.suffixes (fuel + 1) e) := by
  unfold Parser.suffixes
  refine .bind (.eat _) fun _ => .ite ?_ (.bind (.eat _) fun _ => .ite ?_ ?_)
  · exact .bind .skipNewline fun _ => .bind (h.elements _) fun args => h.suffixes _
  · exact .bind .memberName fun name => h.suffixes _
  refine .bind (.eat _) fun _ => .ite ?_ (.pure e)
  exact .bind (h.subscript e) fun e => h.suffixes e

theorem subscript_succ (target : Expr) : Steady f (Parser.subscript (fuel + 1) target) := by
  have bound (text : String) {k : Expr → Parser Expr} (hk : ∀ e, Steady f (k e)) :
      Steady f (Parser.atLexeme text >>= fun found =>
        if found = true then pure .omitted >>= k else Parser.expression fuel 0 >>= k) :=
    .bind (.atLexeme text) fun _ => .ite (.bind (.pure _) hk) (.bind (h.expression 0) hk)
  unfold Parser.subscript
  refine bound ":" fun start => .bind (.eat _) fun _ => .ite ?_ ?_
  · exact bound "]" fun stop => .bind (.expect _) fun _ => .pure _
  · exact .bind (.expect _) fun _ => .pure _

theorem term_succ : Steady f (Parser.term (fuel + 1)) := by
  unfold Parser.term
  refine .peek fun t => .ite (.advance fun _ => .pure _) (.ite (.advance fun _ => .pure _)
    (.ite (.advance fun _ => .pure _) ?_))
  refine .bind (.eat _) fun _ => .ite ?_ (.bind (.eat _) fun _ => .ite ?_ ?_)
  · exact .bind .skipNewline fun _ => .bind (h.expression 0) fun e => .bind .skipNewline fun _ =>
      .bind (.expect _) fun _ => .pure e
  · exact .bind .skipNewline fun _ => .bind (h.elements _) fun items => .pure _
  refine .bind (.eat _) fun _ => .ite ?_ (.refuse _)
  exact .bind .skipNewline fun _ => .bind h.entries fun entries => .pure _

theorem elements_succ (close : String) : Steady f (Parser.elements (fuel + 1) close) := by
  unfold Parser.elements
  refine .bind (.eat _) fun _ => .ite (.pure _) ?_
  refine .bind (h.expression 0) fun e => .bind .skipNewline fun _ => ?_
  refine .bind (.eat _) fun _ => .ite ?_ ?_
  · exact .bind .skipNewline fun _ => .bind (h.elements close) fun rest => .pure _
  · exact .bind (.expect _) fun _ => .pure _

theorem entries_succ : Steady f (Parser.entries (fuel + 1)) := by
  unfold Parser.entries
  refine .bind (.eat _) fun _ => .ite (.pure _) ?_
  refine .bind (h.expression 0) fun key => .bind (.expect _) fun _ => ?_
  refine .bind (h.expression 0) fun value => .bind .skipNewline fun _ => ?_
  refine .bind (.eat _) fun _ => .ite ?_ ?_
  · exact .bind .skipNewline fun _ => .bind h.entries fun rest => .pure _
  · exact .bind (.expect _) fun _ => .pure _

theorem succ : SteadyExpressions f (fuel + 1) where
  expression := h.expression_succ
  climb := h.climb_succ
  operand := h.operand_succ
  suffixes := h.suffixes_succ
  subscript := h.subscript_succ
  term := h.term_succ
  elements := h.elements_succ
  entries := h.entries_succ

end SteadyExpressions

theorem steadyExpressions (f : Nat → Nat) (fuel : Nat) : SteadyExpressions f fuel := by
  induction fuel with
  | zero => exact .zero
  | succ fuel ih => exact ih.succ

namespace Follows

theorem expression (fuel least : Nat) : Steady f (expression fuel least) :=
  (steadyExpressions f fuel).expression least

theorem arguments (fuel : Nat) : Steady f (arguments fuel) := by
  induction fuel with
  | zero => exact .tooDeep
  | succ fuel ih =>
      unfold Parser.arguments
      refine .bind (.expression fuel 0) fun e => .bind (.eat _) fun _ => .ite ?_ (.pure _)
      exact .bind ih fun rest => .pure _

/-! ## Parts of statements -/

theorem names (fuel : Nat) : Steady f (names fuel) := by
  induction fuel with
  | zero => exact .tooDeep
  | succ fuel ih =>
      unfold Parser.names
      refine .bind .name fun first => .bind (.eat _) fun _ => .ite ?_ (.pure _)
      exact .bind ih fun rest => .pure _

theorem parameters (fuel : Nat) : Steady f (parameters fuel) := by
  unfold Parser.parameters
  refine .bind (.expect _) fun _ => .bind (.eat _) fun _ => .ite (.pure _) ?_
  exact .bind (.names fuel) fun params => .bind (.expect _) fun _ => .pure _

theorem loopHeader : Steady f loopHeader := by
  unfold Parser.loopHeader
  refine .bind .name fun first => .bind (.eat _) fun _ => .ite ?_ ?_
  · exact .bind .name fun second => .bind (.expect _) fun _ => .pure _
  · exact .bind (.expect _) fun _ => .pure _

theorem expressionStatement (fuel : Nat) :
    Follows f (Stmt.mapLines f) (expressionStatement fuel) (expressionStatement fuel) := by
  unfold Parser.expressionStatement
  refine .bind (.expression fuel 0) fun e => .bind (.eat _) fun _ => .ite ?_ ?_
  · refine .bind .name fun callee => .peek fun t => .ite ?_ ?_
    · exact .bind (.arguments fuel) fun more => .pure _
    · exact .bind (.pure _) fun more => .pure _
  · refine .peek fun t => .ite ?_ (.pure _)
    exact .bind (.arguments fuel) fun args => .pure _

theorem returnStatement (fuel : Nat) (place : Place) :
    Follows f (Stmt.mapLines f) (returnStatement fuel place) (returnStatement fuel place) := by
  unfold Parser.returnStatement
  refine .ite ?_ (.bind (.refuse _) fun _ => ?_)
  all_goals
    refine .advance fun _ => .bind .atNewline fun _ => .ite (.pure _) ?_
    exact .bind (.expression fuel 0) fun value => .pure _

theorem jump (word : String) (place : Place) {s : Stmt} (hs : s.mapLines f = s) :
    Follows f (Stmt.mapLines f) (jump word place s) (jump word place s) := by
  unfold Parser.jump
  have taken : Follows f (Stmt.mapLines f) (Parser.advance >>= fun _ => Pure.pure s)
      (Parser.advance >>= fun _ => Pure.pure s) := by
    refine .advance fun _ => ?_
    have answer : Follows f (Stmt.mapLines f) (Pure.pure s) (Pure.pure (s.mapLines f)) := .pure s
    rwa [hs] at answer
  exact .ite taken (.bind (.refuse _) fun _ => taken)

end Follows

/-! ## Statements -/

/-- With this much nesting, statements follow the lines. -/
structure FollowsStatements (f : Nat → Nat) (fuel : Nat) : Prop where
  block : ∀ place, Follows f (mapLines f) (block fuel place) (block fuel place)
  statement : ∀ place, Follows f (Stmt.mapLines f) (statement fuel place) (statement fuel place)
  loopBody : ∀ place, Follows f (mapLines f) (loopBody fuel place) (loopBody fuel place)
  alternative : ∀ place,
    Follows f (Alternative.mapLines f) (alternative fuel place) (alternative fuel place)
  arms : ∀ place, Follows f (mapLinesInArms f) (arms fuel place) (arms fuel place)

namespace FollowsStatements

theorem zero : FollowsStatements f 0 where
  block _ := .tooDeep
  statement _ := .tooDeep
  loopBody _ := .tooDeep
  alternative _ := .tooDeep
  arms _ := .tooDeep

variable (h : FollowsStatements f fuel)

include h

theorem block_succ (place : Place) :
    Follows f (mapLines f) (Parser.block (fuel + 1) place) (Parser.block (fuel + 1) place) := by
  unfold Parser.block
  refine .bind .atBlockEnd fun _ => .ite (.pure _) ?_
  refine .bind_mapped (h.statement place) fun s => .bind .expectNewline fun _ => ?_
  exact .bind_mapped (h.block place) fun rest => .pure _

theorem loopBody_succ (place : Place) : Follows f (mapLines f)
    (Parser.loopBody (fuel + 1) place) (Parser.loopBody (fuel + 1) place) := by
  unfold Parser.loopBody
  exact .bind_mapped (h.block _) fun body => .bind (.expect _) fun _ => .pure _

theorem alternative_succ (place : Place) : Follows f (Alternative.mapLines f)
    (Parser.alternative (fuel + 1) place) (Parser.alternative (fuel + 1) place) := by
  unfold Parser.alternative
  refine .bind (.eat _) fun _ => .ite ?_ (.bind (.eat _) fun _ => .ite ?_ ?_)
  · refine .bind (.expression fuel 0) fun test => .bind .expectNewline fun _ => ?_
    refine .bind_mapped (h.block place) fun body => ?_
    exact .bind_mapped (h.alternative place) fun rest => .pure _
  · refine .bind .expectNewline fun _ => .bind_mapped (h.block place) fun body => ?_
    exact .bind (.expect _) fun _ => .pure _
  · exact .bind (.expect _) fun _ => .pure _

theorem arms_succ (place : Place) : Follows f (mapLinesInArms f)
    (Parser.arms (fuel + 1) place) (Parser.arms (fuel + 1) place) := by
  unfold Parser.arms
  refine .bind (.eat _) fun _ => .ite ?_ (.bind (.eat _) fun _ => .ite ?_ ?_)
  · refine .bind (.arguments fuel) fun patterns => .bind .expectNewline fun _ => ?_
    refine .bind_mapped (h.block place) fun body => ?_
    exact .bind_mapped (h.arms place) fun rest => .pure _
  · refine .bind .expectNewline fun _ => .bind_mapped (h.block place) fun body => ?_
    exact .bind (.expect _) fun _ => .pure _
  · exact .bind (.expect _) fun _ => .pure _

theorem statement_succ (place : Place) : Follows f (Stmt.mapLines f)
    (Parser.statement (fuel + 1) place) (Parser.statement (fuel + 1) place) := by
  unfold Parser.statement
  refine .peek fun t => .ite (.expressionStatement fuel) ?_
  rw [Token.mapLine_text]
  split
  · refine .advance fun _ => .bind (.expression fuel 0) fun test => .bind .expectNewline fun _ => ?_
    refine .bind_mapped (h.block place) fun body => ?_
    exact .bind_mapped (h.alternative place) fun rest => .pure _
  · refine .advance fun _ => .bind (.expression fuel 0) fun test => .bind .expectNewline fun _ => ?_
    exact .bind_mapped (h.loopBody place) fun body => .pure _
  · refine .advance fun _ => .bind (.expression fuel 0) fun test => .bind .expectNewline fun _ => ?_
    exact .bind_mapped (h.loopBody place) fun body => .pure _
  · refine .advance fun _ => .bind .loopHeader fun header => ?_
    refine .bind (.expression fuel 0) fun iterable => .bind .expectNewline fun _ => ?_
    exact .bind_mapped (h.loopBody place) fun body => .pure _
  · refine .advance fun _ => .bind (.expression fuel 0) fun subject => ?_
    exact .bind .expectNewline fun _ => .bind_mapped (h.arms place) fun arms => .pure _
  · refine .advance fun _ => .bind .name fun name => .bind (.parameters fuel) fun params => ?_
    refine .bind .expectNewline fun _ => .bind_mapped (h.block _) fun body => ?_
    exact .bind (.expect _) fun _ => .pure _
  · exact .returnStatement fuel place
  · exact .advance fun _ => .bind (.names fuel) fun names => .pure _
  · exact .jump _ place rfl
  · exact .jump _ place rfl
  · -- the one place where a line becomes part of the answer
    exact .advance fun t => .bind (.expression fuel 0) fun test =>
      .pure (Stmt.assert test t.line)
  · exact .advance fun _ => .bind (.expression fuel 0) fun value => .pure _
  · refine .advance fun _ => .bind .expectNewline fun _ => ?_
    refine .bind_mapped (h.block place) fun body => ?_
    refine .bind (.expect _) fun _ => .bind .name fun name => .bind .expectNewline fun _ => ?_
    exact .bind_mapped (h.block place) fun handler => .bind (.expect _) fun _ => .pure _
  · exact .expressionStatement fuel

theorem succ : FollowsStatements f (fuel + 1) where
  block := h.block_succ
  statement := h.statement_succ
  loopBody := h.loopBody_succ
  alternative := h.alternative_succ
  arms := h.arms_succ

end FollowsStatements

theorem followsStatements (f : Nat → Nat) (fuel : Nat) : FollowsStatements f fuel := by
  induction fuel with
  | zero => exact .zero
  | succ fuel ih => exact ih.succ

theorem Follows.program (f : Nat → Nat) (fuel : Nat) :
    Follows f (mapLines f) (program fuel) (program fuel) := by
  unfold Parser.program
  refine .bind .skipNewline fun _ => ?_
  refine .bind_mapped ((followsStatements f fuel).block {}) fun body => ?_
  exact .peek fun _ => .ite (.pure _) (.bind (.refuse _) fun _ => .pure _)

end Parser

/-- On renumbered lines a text has the same program or diagnostic with its lines
renumbered. -/
theorem Lexed.parse_mapLines (f : Nat → Nat) (l : Lexed) :
    (l.mapLines f).parse =
      (l.parse.map (ScriptLang.mapLines f)).mapError (Diagnostic.mapLine f) := by
  have follow (start : Cursor) (hl : l.cursor = .ok start)
      (hm : (l.mapLines f).cursor = .ok (start.mapLines f)) : (l.mapLines f).parse =
        (l.parse.map (ScriptLang.mapLines f)).mapError (Diagnostic.mapLine f) := by
    have nesting : (l.mapLines f).nesting = l.nesting := by
      rw [nesting, nesting, mapLines, List.length_map]
    have run := Parser.Follows.program f l.nesting start
    simp only [parse, hl, hm, nesting, Bind.bind, Except.bind, run]
    cases (Parser.program l.nesting).run start with
    | ok answer => rfl
    | error stop => cases stop <;> rfl
  obtain ⟨tokens, fault⟩ := l
  cases tokens with
  | cons t rest => exact follow ⟨t, rest, fault⟩ rfl rfl
  | nil =>
      cases fault with
      | some d => rfl
      | none => rfl

end ScriptLang
