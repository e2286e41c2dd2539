import ScriptLang.Proofs.Parser.FirstError
import ScriptLang.Proofs.Parser.WellFormed
import ScriptLang.Proofs.Token.Piece

/-!
# The marks that are read

A production takes a punctuation mark for its spelling alone, so the marks of a text that
is read are those of the grammar. `Takes p` says of a production that the tokens it has
taken when it answers are of this kind. It is closed under the ways in which productions
are put together.
-/

namespace ScriptLang

/-- The lexemes that productions take for their spelling. -/
def grammarLexemes : List String := "." :: marks ++ Token.keywords

/-- A punctuation mark is one of the grammar. -/
def Token.InGrammar (t : Token) : Prop := t.kind = .punct → t.text ∈ grammarLexemes

namespace Token

theorem inGrammar_of_kind {t : Token} {kind : Kind} (h : t.kind = kind) (other : kind ≠ .punct) :
    t.InGrammar :=
  fun punct => absurd (h.symm.trans punct) other

theorem inGrammar_of_is {t : Token} {text : String} (h : t.is text = true)
    (mem : text ∈ grammarLexemes) : t.InGrammar := by
  simp only [is, Bool.and_eq_true, decide_eq_true_eq] at h
  intro _
  rwa [h.2]

theorem inGrammar_of_isName {t : Token} (h : t.isName = true) : t.InGrammar := by
  simp only [isName, Bool.and_eq_true, decide_eq_true_eq] at h
  exact inGrammar_of_kind h.1 (by decide)

end Token

theorem Connective.kind_of_ofToken? {t : Token} {c : Connective} (h : ofToken? t = some c) :
    t.kind = .punct := by
  by_contra other
  rw [ofToken?, if_neg other] at h
  cases h

theorem UnaryOp.kind_of_ofToken? {t : Token} {op : UnaryOp} (h : ofToken? t = some op) :
    t.kind = .punct := by
  by_contra other
  rw [ofToken?, if_neg other] at h
  cases h

theorem Connective.inGrammar_of_ofToken? {t : Token} {c : Connective} (h : ofToken? t = some c) :
    t.InGrammar := by
  intro punct
  have known : ∀ c ∈ all, c.spelling ∈ grammarLexemes := by decide
  rw [ofToken?, if_pos punct] at h
  have spells := List.find?_some h
  rw [← eq_of_beq spells]
  exact known c (List.mem_of_find?_eq_some h)

theorem UnaryOp.inGrammar_of_ofToken? {t : Token} {op : UnaryOp} (h : ofToken? t = some op) :
    t.InGrammar := by
  intro punct
  have known : ∀ op ∈ all, op.spelling ∈ grammarLexemes := by decide
  rw [ofToken?, if_pos punct] at h
  have spells := List.find?_some h
  rw [← eq_of_beq spells]
  exact known op (List.mem_of_find?_eq_some h)

namespace Parser

variable {α β : Type} {p q : Parser α} {t : Token} {fuel : Nat}

/-- From this cursor, what the production has taken when it answers is of the grammar. -/
def TakesFrom (c : Cursor) (p : Parser α) : Prop :=
  ∀ a c', p.run c = .ok (a, c') → ∃ used, c.tokens = used ++ c'.tokens ∧ ∀ t ∈ used, t.InGrammar

/-- What the production takes is of the grammar. -/
def Takes (p : Parser α) : Prop := ∀ c, TakesFrom c p

/-- The same for productions that begin at a given token. -/
def TakesAt (t : Token) (p : Parser α) : Prop := ∀ c, c.current = t → TakesFrom c p

theorem TakesAt.ite {b : Prop} [Decidable b] (hp : b → TakesAt t p) (hq : ¬b → TakesAt t q) :
    TakesAt t (if b then p else q) := by
  split
  next h => exact hp h
  next h => exact hq h

/-- Taking the token that was looked at. -/
theorem TakesAt.advance {k : Token → Parser α} (ht : t.InGrammar) (hk : ∀ t, Takes (k t)) :
    TakesAt t (advance >>= k) := by
  rintro ⟨current, rest, fault⟩ rfl a c' hr
  obtain ⟨t, c₁, hr₁, hr⟩ := run_bind_eq_ok.mp hr
  obtain ⟨used, after, known⟩ := hk t c₁ a c' hr
  cases rest with
  | cons next rest =>
      obtain ⟨rfl, rfl⟩ : current = t ∧ ⟨next, rest, fault⟩ = c₁ := by
        cases hr₁
        exact ⟨rfl, rfl⟩
      refine ⟨current :: used, ?_, List.forall_mem_cons.mpr ⟨ht, known⟩⟩
      exact congrArg (current :: ·) after
  | nil =>
      cases fault with
      | some d => cases hr₁
      | none =>
          obtain ⟨rfl, rfl⟩ : current = t ∧ ⟨current, [], none⟩ = c₁ := by
            cases hr₁
            exact ⟨rfl, rfl⟩
          exact ⟨used, after, known⟩

theorem Takes.at (h : Takes p) (t : Token) : TakesAt t p := fun c _ => h c

namespace Takes

theorem pure (a : α) : Takes (pure a) := by
  intro c a' c' hr
  cases hr
  exact ⟨[], rfl, nofun⟩

theorem throw (stop : Stop) : Takes (throw stop : Parser α) := fun _ _ _ hr => nomatch hr

theorem bind {k : α → Parser β} (hp : Takes p) (hk : ∀ a, Takes (k a)) : Takes (p >>= k) := by
  intro c b c' hr
  obtain ⟨a, c₁, hr₁, hr⟩ := run_bind_eq_ok.mp hr
  obtain ⟨used, before, known⟩ := hp c a c₁ hr₁
  obtain ⟨used', after, known'⟩ := hk a c₁ b c' hr
  refine ⟨used ++ used', ?_, List.forall_mem_append.mpr ⟨known, known'⟩⟩
  rw [before, after, List.append_assoc]

theorem ite {b : Prop} [Decidable b] (hp : Takes p) (hq : Takes q) :
    Takes (if b then p else q) := by
  split
  · exact hp
  · exact hq

/-! ## The cursor -/

theorem peek {k : Token → Parser α} (h : ∀ t, TakesAt t (k t)) : Takes (peek >>= k) :=
  fun c a c' hr => h c.current c rfl a c' hr

theorem refuse (what : Expectation) : Takes (refuse what : Parser α) :=
  peek fun t => (throw _).at t

theorem refuse_bind {what : Expectation} {k : α → Parser β} :
    Takes (Parser.refuse what >>= k) := by
  intro c a c' hr
  obtain ⟨_, _, hr₁, -⟩ := run_bind_eq_ok.mp hr
  cases hr₁

theorem tooDeep : Takes (tooDeep : Parser α) := throw _

theorem atLexeme (text : String) : Takes (atLexeme text) := peek fun t => (pure _).at t

theorem atNewline : Takes atNewline := peek fun t => (pure _).at t

theorem atBlockEnd : Takes atBlockEnd := peek fun t => (pure _).at t

theorem eat {text : String} (mem : text ∈ grammarLexemes) : Takes (eat text) := by
  unfold Parser.eat Parser.atLexeme
  simp only [bind_assoc, pure_bind]
  refine peek fun t => .ite (fun is => ?_) fun _ => (pure _).at t
  exact .advance (Token.inGrammar_of_is is mem) fun _ => pure _

theorem expect {text : String} (mem : text ∈ grammarLexemes) : Takes (expect text) :=
  bind (eat mem) fun _ => ite (pure _) (refuse _)

theorem expectNewline : Takes expectNewline := by
  unfold Parser.expectNewline Parser.atNewline
  simp only [bind_assoc, pure_bind]
  refine peek fun t => .ite (fun newline => ?_) fun _ => (refuse _).at t
  exact .advance (Token.inGrammar_of_kind (of_decide_eq_true newline) (by decide)) fun _ => pure _

theorem skipNewline : Takes skipNewline := by
  unfold Parser.skipNewline Parser.atNewline
  simp only [bind_assoc, pure_bind]
  refine peek fun t => .ite (fun newline => ?_) fun _ => (pure _).at t
  exact .advance (Token.inGrammar_of_kind (of_decide_eq_true newline) (by decide)) fun _ => pure _

theorem name : Takes name :=
  peek fun t => .ite (fun hn => .advance (Token.inGrammar_of_isName hn) fun _ => pure _)
    fun _ => (refuse _).at t

theorem memberName : Takes memberName :=
  peek fun t => .ite (fun hw => .advance (Token.inGrammar_of_kind hw (by decide)) fun _ => pure _)
    fun _ => (refuse _).at t

end Takes

/-! ## Expressions -/

/-- With this much nesting, expressions take what is of the grammar. -/
structure TakesExpressions (fuel : Nat) : Prop where
  expression : ∀ least, Takes (expression fuel least)
  climb : ∀ least lhs, Takes (climb fuel least lhs)
  operand : Takes (operand fuel)
  suffixes : ∀ e, Takes (suffixes fuel e)
  subscript : ∀ target, Takes (subscript fuel target)
  term : Takes (term fuel)
  elements : ∀ close ∈ [")", "]"], Takes (elements fuel close)
  entries : Takes (entries fuel)

namespace TakesExpressions

theorem zero : TakesExpressions 0 where
  expression _ := .tooDeep
  climb _ _ := .tooDeep
  operand := .tooDeep
  suffixes _ := .tooDeep
  subscript _ := .tooDeep
  term := .tooDeep
  elements _ _ := .tooDeep
  entries := .tooDeep

variable (h : TakesExpressions fuel)

include h

theorem expression_succ (least : Nat) : Takes (Parser.expression (fuel + 1) least) :=
  .bind h.operand fun lhs => h.climb least lhs

theorem climb_succ (least : Nat) (lhs : Expr) : Takes (Parser.climb (fuel + 1) least lhs) := by
  unfold Parser.climb
  refine .peek fun t => ?_
  cases hc : Connective.ofToken? t with
  | none => exact (Takes.pure lhs).at t
  | some c =>
      refine .ite (fun _ => (Takes.pure lhs).at t) fun _ => .ite (fun _ => ?_) fun _ => ?_
      · exact Takes.refuse_bind.at t
      · refine .advance (Connective.inGrammar_of_ofToken? hc) fun _ => ?_
        exact .bind (h.expression _) fun rhs => h.climb _ _

theorem operand_succ : Takes (Parser.operand (fuel + 1)) := by
  unfold Parser.operand
  refine .peek fun t => ?_
  cases hop : UnaryOp.ofToken? t with
  | some op =>
      refine .advance (UnaryOp.inGrammar_of_ofToken? hop) fun _ => ?_
      exact .bind h.operand fun e => .pure _
  | none => exact (Takes.bind h.term fun e => h.suffixes e).at t

theorem suffixes_succ (e : Expr) : Takes (Parser.suffixes (fuel + 1) e) := by
  unfold Parser.suffixes
  refine .bind (.eat (by decide)) fun _ => .ite ?_ ?_
  · exact .bind .skipNewline fun _ => .bind (h.elements _ (by decide)) fun args => h.suffixes _
  refine .bind (.eat (by decide)) fun _ => .ite ?_ ?_
  · exact .bind .memberName fun name => h.suffixes _
  refine .bind (.eat (by decide)) fun _ => .ite ?_ (.pure e)
  exact .bind (h.subscript e) fun e => h.suffixes e

theorem subscript_succ (target : Expr) : Takes (Parser.subscript (fuel + 1) target) := by
  have bound (text : String) {k : Expr → Parser Expr} (hk : ∀ e, Takes (k e)) :
      Takes (Parser.atLexeme text >>= fun found =>
        if found = true then pure .omitted >>= k else Parser.expression fuel 0 >>= k) :=
    .bind (.atLexeme text) fun _ => .ite (.bind (.pure _) hk) (.bind (h.expression 0) hk)
  unfold Parser.subscript
  refine bound ":" fun start => .bind (.eat (by decide)) fun _ => .ite ?_ ?_
  · exact bound "]" fun stop => .bind (.expect (by decide)) fun _ => .pure _
  · exact .bind (.expect (by decide)) fun _ => .pure _

theorem term_succ : Takes (Parser.term (fuel + 1)) := by
  unfold Parser.term
  refine .peek fun t => .ite (fun quote => ?_) fun _ => .ite (fun number => ?_) fun _ =>
    .ite (fun name => ?_) fun _ => Takes.at ?_ t
  · exact .advance (Token.inGrammar_of_kind quote (by decide)) fun _ => .pure _
  · exact .advance (Token.inGrammar_of_kind number (by decide)) fun _ => .pure _
  · exact .advance (Token.inGrammar_of_isName name) fun _ => .pure _
  refine .bind (.eat (by decide)) fun _ => .ite ?_ ?_
  · exact .bind .skipNewline fun _ => .bind (h.expression 0) fun e => .bind .skipNewline fun _ =>
      .bind (.expect (by decide)) fun _ => .pure e
  refine .bind (.eat (by decide)) fun _ => .ite ?_ ?_
  · exact .bind .skipNewline fun _ => .bind (h.elements _ (by decide)) fun items => .pure _
  refine .bind (.eat (by decide)) fun _ => .ite ?_ (.refuse _)
  exact .bind .skipNewline fun _ => .bind h.entries fun entries => .pure _

theorem elements_succ (close : String) (hc : close ∈ [")", "]"]) :
    Takes (Parser.elements (fuel + 1) close) := by
  have known : ∀ close ∈ [")", "]"], close ∈ grammarLexemes := by decide
  unfold Parser.elements
  refine .bind (.eat (known close hc)) fun _ => .ite (.pure _) ?_
  refine .bind (h.expression 0) fun e => .bind .skipNewline fun _ => ?_
  refine .bind (.eat (by decide)) fun _ => .ite ?_ ?_
  · exact .bind .skipNewline fun _ => .bind (h.elements close hc) fun rest => .pure _
  · exact .bind (.expect (known close hc)) fun _ => .pure _

theorem entries_succ : Takes (Parser.entries (fuel + 1)) := by
  unfold Parser.entries
  refine .bind (.eat (by decide)) fun _ => .ite (.pure _) ?_
  refine .bind (h.expression 0) fun key => .bind (.expect (by decide)) fun _ => ?_
  refine .bind (h.expression 0) fun value => .bind .skipNewline fun _ => ?_
  refine .bind (.eat (by decide)) fun _ => .ite ?_ ?_
  · exact .bind .skipNewline fun _ => .bind h.entries fun rest => .pure _
  · exact .bind (.expect (by decide)) fun _ => .pure _

theorem succ : TakesExpressions (fuel + 1) where
  expression := h.expression_succ
  climb := h.climb_succ
  operand := h.operand_succ
  suffixes := h.suffixes_succ
  subscript := h.subscript_succ
  term := h.term_succ
  elements := h.elements_succ
  entries := h.entries_succ

end TakesExpressions

theorem takesExpressions (fuel : Nat) : TakesExpressions fuel := by
  induction fuel with
  | zero => exact .zero
  | succ fuel ih => exact ih.succ

namespace Takes

theorem expression (fuel least : Nat) : Takes (expression fuel least) :=
  (takesExpressions fuel).expression least

theorem arguments (fuel : Nat) : Takes (arguments fuel) := by
  induction fuel with
  | zero => exact tooDeep
  | succ fuel ih =>
      unfold Parser.arguments
      refine bind (expression fuel 0) fun e => bind (eat (by decide)) fun _ => ite ?_ (pure _)
      exact bind ih fun rest => pure _

/-! ## Parts of statements -/

theorem names (fuel : Nat) : Takes (names fuel) := by
  induction fuel with
  | zero => exact tooDeep
  | succ fuel ih =>
      unfold Parser.names
      refine bind name fun first => bind (eat (by decide)) fun _ => ite ?_ (pure _)
      exact bind ih fun rest => pure _

theorem parameters (fuel : Nat) : Takes (parameters fuel) := by
  unfold Parser.parameters
  refine bind (expect (by decide)) fun _ => bind (eat (by decide)) fun _ => ite (pure _) ?_
  exact bind (names fuel) fun params => bind (expect (by decide)) fun _ => pure _

theorem loopHeader : Takes loopHeader := by
  unfold Parser.loopHeader
  refine bind name fun first => bind (eat (by decide)) fun _ => ite ?_ ?_
  · exact bind name fun second => bind (expect (by decide)) fun _ => pure _
  · exact bind (expect (by decide)) fun _ => pure _

theorem expressionStatement (fuel : Nat) : Takes (expressionStatement fuel) := by
  unfold Parser.expressionStatement
  refine bind (expression fuel 0) fun e => bind (eat (by decide)) fun _ => ite ?_ ?_
  · refine bind name fun callee => peek fun t => Takes.at (ite ?_ ?_) t
    · exact bind (arguments fuel) fun more => pure _
    · exact bind (pure _) fun more => pure _
  · refine peek fun t => Takes.at (ite ?_ (pure _)) t
    exact bind (arguments fuel) fun args => pure _

end Takes

/-! ## Statements -/

variable {place : Place}

theorem TakesAt.returnStatement (ht : t.InGrammar) (fuel : Nat) :
    TakesAt t (returnStatement fuel place) := by
  unfold Parser.returnStatement
  refine .ite (fun _ => .advance ht fun _ => ?_) fun _ => ?_
  · refine .bind .atNewline fun _ => .ite (.pure _) ?_
    exact .bind (.expression fuel 0) fun value => .pure _
  · exact Takes.refuse_bind.at t

theorem TakesAt.jump (ht : t.InGrammar) (word : String) (s : Stmt) :
    TakesAt t (jump word place s) := by
  unfold Parser.jump
  refine .ite (fun _ => .advance ht fun _ => .pure s) fun _ => ?_
  exact Takes.refuse_bind.at t

/-- With this much nesting, statements take what is of the grammar. -/
structure TakesStatements (fuel : Nat) : Prop where
  block : ∀ place, Takes (block fuel place)
  statement : ∀ place, Takes (statement fuel place)
  loopBody : ∀ place, Takes (loopBody fuel place)
  alternative : ∀ place, Takes (alternative fuel place)
  arms : ∀ place, Takes (arms fuel place)

namespace TakesStatements

theorem zero : TakesStatements 0 where
  block _ := .tooDeep
  statement _ := .tooDeep
  loopBody _ := .tooDeep
  alternative _ := .tooDeep
  arms _ := .tooDeep

variable (h : TakesStatements fuel)

include h

theorem block_succ (place : Place) : Takes (Parser.block (fuel + 1) place) := by
  unfold Parser.block
  refine .bind .atBlockEnd fun _ => .ite (.pure _) ?_
  refine .bind (h.statement place) fun s => .bind .expectNewline fun _ => ?_
  exact .bind (h.block place) fun rest => .pure _

theorem loopBody_succ (place : Place) : Takes (Parser.loopBody (fuel + 1) place) := by
  unfold Parser.loopBody
  exact .bind (h.block _) fun body => .bind (.expect (by decide)) fun _ => .pure _

theorem alternative_succ (place : Place) : Takes (Parser.alternative (fuel + 1) place) := by
  unfold Parser.alternative
  refine .bind (.eat (by decide)) fun _ => .ite ?_ ?_
  · refine .bind (.expression fuel 0) fun test => .bind .expectNewline fun _ => ?_
    exact .bind (h.block place) fun body => .bind (h.alternative place) fun rest => .pure _
  refine .bind (.eat (by decide)) fun _ => .ite ?_ ?_
  · exact .bind .expectNewline fun _ => .bind (h.block place) fun body =>
      .bind (.expect (by decide)) fun _ => .pure _
  · exact .bind (.expect (by decide)) fun _ => .pure _

theorem arms_succ (place : Place) : Takes (Parser.arms (fuel + 1) place) := by
  unfold Parser.arms
  refine .bind (.eat (by decide)) fun _ => .ite ?_ ?_
  · refine .bind (.arguments fuel) fun patterns => .bind .expectNewline fun _ => ?_
    exact .bind (h.block place) fun body => .bind (h.arms place) fun rest => .pure _
  refine .bind (.eat (by decide)) fun _ => .ite ?_ ?_
  · exact .bind .expectNewline fun _ => .bind (h.block place) fun body =>
      .bind (.expect (by decide)) fun _ => .pure _
  · exact .bind (.expect (by decide)) fun _ => .pure _

theorem statement_succ (place : Place) : Takes (Parser.statement (fuel + 1) place) := by
  unfold Parser.statement
  refine .peek fun t => .ite (fun _ => (Takes.expressionStatement fuel).at t) fun word => ?_
  have ht : t.InGrammar := Token.inGrammar_of_kind (not_not.mp word) (by decide)
  split
  · refine .advance ht fun _ => .bind (.expression fuel 0) fun test => ?_
    refine .bind .expectNewline fun _ => .bind (h.block place) fun body => ?_
    exact .bind (h.alternative place) fun rest => .pure _
  · refine .advance ht fun _ => .bind (.expression fuel 0) fun test => ?_
    exact .bind .expectNewline fun _ => .bind (h.loopBody place) fun body => .pure _
  · refine .advance ht fun _ => .bind (.expression fuel 0) fun test => ?_
    exact .bind .expectNewline fun _ => .bind (h.loopBody place) fun body => .pure _
  · refine .advance ht fun _ => .bind .loopHeader fun header => ?_
    refine .bind (.expression fuel 0) fun iterable => .bind .expectNewline fun _ => ?_
    exact .bind (h.loopBody place) fun body => .pure _
  · refine .advance ht fun _ => .bind (.expression fuel 0) fun subject => ?_
    exact .bind .expectNewline fun _ => .bind (h.arms place) fun arms => .pure _
  · refine .advance ht fun _ => .bind .name fun name => .bind (.parameters fuel) fun params => ?_
    refine .bind .expectNewline fun _ => .bind (h.block _) fun body => ?_
    exact .bind (.expect (by decide)) fun _ => .pure _
  · exact .returnStatement ht fuel
  · exact .advance ht fun _ => .bind (.names fuel) fun names => .pure _
  · exact .jump ht _ _
  · exact .jump ht _ _
  · exact .advance ht fun _ => .bind (.expression fuel 0) fun test => .pure _
  · exact .advance ht fun _ => .bind (.expression fuel 0) fun value => .pure _
  · refine .advance ht fun _ => .bind .expectNewline fun _ => .bind (h.block place) fun body => ?_
    refine .bind (.expect (by decide)) fun _ => .bind .name fun name => ?_
    refine .bind .expectNewline fun _ => .bind (h.block place) fun handler => ?_
    exact .bind (.expect (by decide)) fun _ => .pure _
  · exact (Takes.expressionStatement fuel).at t

theorem succ : TakesStatements (fuel + 1) where
  block := h.block_succ
  statement := h.statement_succ
  loopBody := h.loopBody_succ
  alternative := h.alternative_succ
  arms := h.arms_succ

end TakesStatements

theorem takesStatements (fuel : Nat) : TakesStatements fuel := by
  induction fuel with
  | zero => exact .zero
  | succ fuel ih => exact ih.succ

theorem Takes.program (fuel : Nat) : Takes (program fuel) := by
  unfold Parser.program
  refine .bind .skipNewline fun _ => .bind ((takesStatements fuel).block {}) fun body => ?_
  exact .peek fun t => Takes.at (.ite (.pure _) .refuse_bind) t

end Parser

end ScriptLang
