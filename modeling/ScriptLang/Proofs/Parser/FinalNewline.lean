import ScriptLang.Proofs.Parser.Taken
import ScriptLang.Proofs.Token.Append
import ScriptLang.Target.Module

/-!
# The final line feed

A loaded text ends in a line feed, and that is all its last statement needs. Whatever a
statement or an expression has taken last, it is not a line break: line breaks inside of
brackets are followed by the closing one, and the line breaks of a block by what ends the
enclosing statement. Of the tokens of a loaded text, only a line break stands before the
end. So where a statement ends, the text does not.

`Leads P p Q` says of a production that it leads from where the tokens taken so far have
the property `P` to where they have the property `Q`, and that it does not miss a line
break at the end of the text. It is closed under the ways in which productions are put
together.
-/

namespace ScriptLang

/-- From the first cursor on, taking these tokens leads to the second one. -/
def Cursor.Takes (start : Cursor) (taken : List Token) (c : Cursor) : Prop :=
  start.tokens = taken ++ c.tokens ∧ c.fault = start.fault

/-- The tokens are those of a text that ends in a line feed: nothing but a line break
stands before the end of the text. -/
structure Cursor.Lined (c : Cursor) : Prop where
  ended : c.Ended
  lines : c.tokens.IsChain fun t next => next.kind = .eof → t.kind = .newline
  eof : ∀ t ∈ c.tokens, t.text = Token.eofText → t.kind = .eof
  fault : ∀ d ∈ c.fault, ∀ what, d.cause ≠ .expected what

/-- The text is refused at its end, because a line break is missing there. -/
def Diagnostic.WantsFinalNewline (d : Diagnostic) : Prop :=
  d.near = Token.eofText ∧ d.cause = .expected .newline

/-- There is a last one of these tokens, and it is not a line break. -/
def InLine (taken : List Token) : Prop := ∃ t ∈ taken.getLast?, t.kind ≠ .newline

theorem inLine_append (taken : List Token) {t : Token} (h : t.kind ≠ .newline) :
    InLine (taken ++ [t]) :=
  ⟨t, List.getLast?_concat, h⟩

namespace Cursor

variable {start c c' : Cursor} {taken used : List Token}

theorem Takes.refl (c : Cursor) : c.Takes [] c := ⟨rfl, rfl⟩

theorem Takes.trans (h : start.Takes taken c) (h' : c.Takes used c') :
    start.Takes (taken ++ used) c' := by
  refine ⟨?_, h'.2.trans h.2⟩
  rw [h.1, h'.1, List.append_assoc]

theorem Takes.ended (h : start.Takes taken c) (lined : start.Lined) : c.Ended :=
  lined.ended.of_append h.1 h.2

/-- What is left of such a text is the rest of one. -/
theorem Takes.lined (h : start.Takes taken c) (lined : start.Lined) : c.Lined := by
  obtain ⟨tokens, fault⟩ := h
  refine ⟨lined.ended.of_append tokens fault, ?_, ?_, fault ▸ lined.fault⟩
  · have lines := lined.lines
    rw [tokens] at lines
    exact lines.right_of_append
  · intro t ht
    exact lined.eof t (tokens ▸ List.mem_append_right _ ht)

/-- Where the text ends, a line break was taken last, if anything was. -/
theorem Takes.newline_of_eof (h : start.Takes taken c) (lined : start.Lined)
    (eof : c.current.kind = .eof) : ∀ t ∈ taken.getLast?, t.kind = .newline := by
  intro t last
  have lines := lined.lines
  rw [h.1, List.isChain_append] at lines
  exact lines.2.2 t last c.current rfl eof

/-- Within a line the text does not end. -/
theorem Takes.not_eof (h : start.Takes taken c) (lined : start.Lined) (inLine : InLine taken) :
    c.current.kind ≠ .eof := by
  intro eof
  obtain ⟨t, last, other⟩ := inLine
  exact other (h.newline_of_eof lined eof t last)

end Cursor

namespace Parser

variable {α β : Type} {p p' : Parser α} {t : Token} {fuel : Nat}
  {P P' Q Q' R : List Token → Prop}

/-- An answer leaves the property to the tokens that have been taken from `start` on, and
no line break is missing at the end of the text. -/
def Arrives (start : Cursor) (Q : List Token → Prop) : Except Stop (α × Cursor) → Prop
  | .ok (_, c) => ∃ taken, start.Takes taken c ∧ Q taken
  | .error (.refused d) => ¬d.WantsFinalNewline
  | .error .tooDeep => True

/-- The production leads from where the first property holds to where the second does. -/
def Leads (P : List Token → Prop) (p : Parser α) (Q : List Token → Prop) : Prop :=
  ∀ start taken c, start.Lined → start.Takes taken c → P taken → Arrives start Q (p.run c)

/-- The same for productions that begin at a given token. -/
def LeadsAt (t : Token) (P : List Token → Prop) (p : Parser α) (Q : List Token → Prop) : Prop :=
  ∀ start taken c, start.Lined → start.Takes taken c → P taken → c.current = t →
    Arrives start Q (p.run c)

theorem Leads.at (h : Leads P p Q) (t : Token) : LeadsAt t P p Q :=
  fun start taken c lined takes hp _ => h start taken c lined takes hp

theorem LeadsAt.ite {b : Prop} [Decidable b] (hp : b → LeadsAt t P p Q)
    (hq : ¬b → LeadsAt t P p' Q) : LeadsAt t P (if b then p else p') Q := by
  split
  next h => exact hp h
  next h => exact hq h

theorem LeadsAt.mono (h : LeadsAt t P p Q) (hQ : ∀ taken, Q taken → Q' taken) :
    LeadsAt t P p Q' := by
  intro start taken c lined takes hp here
  have arrives := h start taken c lined takes hp here
  match p.run c, arrives with
  | .ok (a, c'), ⟨taken', takes', hq⟩ => exact ⟨taken', takes', hQ taken' hq⟩
  | .error (.refused d), other => exact other
  | .error .tooDeep, _ => trivial

/-- Taking the token that was looked at, which is not the end of the text. -/
theorem LeadsAt.advance {k : Token → Parser α} (eof : t.kind ≠ .eof)
    (after : ∀ taken, R (taken ++ [t])) (h : ∀ t, Leads R (k t) Q) :
    LeadsAt t P (advance >>= k) Q := by
  rintro start taken ⟨current, rest, fault⟩ lined takes - rfl
  cases rest with
  | cons next rest =>
      let c : Cursor := ⟨next, rest, fault⟩
      have one : Cursor.Takes ⟨current, next :: rest, fault⟩ [current] c := ⟨rfl, rfl⟩
      exact h current start _ c lined (takes.trans one) (after taken)
  | nil =>
      cases fault with
      | some d => exact fun wants => lined.fault d takes.2.symm _ wants.2
      | none =>
          obtain ⟨t, last, kind⟩ := takes.ended lined rfl
          obtain rfl : current = t := by simpa [Cursor.tokens] using last
          exact absurd kind eof

/-- A token that can be told by its kind is taken within its line. -/
theorem LeadsAt.take {k : Token → Parser α} {kind : Token.Kind} (ht : t.kind = kind)
    (inLine : kind ≠ .eof ∧ kind ≠ .newline) (h : ∀ t, Leads InLine (k t) Q) :
    LeadsAt t P (Parser.advance >>= k) Q := by
  subst ht
  exact .advance inLine.1 (fun taken => inLine_append taken inLine.2) h

namespace Leads

theorem mono (h : Leads P p Q) (hQ : ∀ taken, Q taken → Q' taken) : Leads P p Q' :=
  fun start taken c lined takes hp => (h.at c.current).mono hQ start taken c lined takes hp rfl

theorem pure (a : α) : Leads P (pure a) P := fun _ taken _ _ takes hp => ⟨taken, takes, hp⟩

theorem tooDeep : Leads P (tooDeep : Parser α) Q := fun _ _ _ _ _ _ => trivial

theorem refuse {what : Expectation} (h : what ≠ .newline) :
    Leads P (refuse what : Parser α) Q := by
  rintro start taken c - - - ⟨-, cause⟩
  exact h (Cause.expected.inj cause)

theorem bind {k : α → Parser β} (hp : Leads P p Q) (hk : ∀ a, Leads Q (k a) R) :
    Leads P (p >>= k) R := by
  intro start taken c lined takes h
  have first := hp start taken c lined takes h
  rw [StateT.run_bind]
  match p.run c, first with
  | .ok (a, c'), ⟨taken', takes', hq⟩ => exact hk a start taken' c' lined takes' hq
  | .error (.refused d), other => exact other
  | .error .tooDeep, _ => trivial

theorem ite {b : Prop} [Decidable b] (hp : Leads P p Q) (hq : Leads P p' Q) :
    Leads P (if b then p else p') Q := by
  split
  · exact hp
  · exact hq

/-! ## The cursor -/

theorem peek {k : Token → Parser α} (h : ∀ t, LeadsAt t P (k t) Q) : Leads P (peek >>= k) Q :=
  fun start taken c lined takes hp => h c.current start taken c lined takes hp rfl

theorem refuse_bind {what : Expectation} (h : what ≠ .newline) {k : α → Parser β} :
    Leads P (Parser.refuse what >>= k) Q :=
  bind (refuse (Q := fun _ => False) h) fun _ _ _ _ _ _ impossible => impossible.elim

theorem atLexeme (text : String) : Leads P (atLexeme text) P := peek fun t => (pure _).at t

theorem atNewline : Leads P atNewline P := peek fun t => (pure _).at t

theorem atBlockEnd : Leads P atBlockEnd P := peek fun t => (pure _).at t

/-- A token is taken or left. -/
theorem eat {text : String} (taken : Leads InLine p Q) (left : Leads P p' Q) :
    Leads P (eat text >>= fun found => if found = true then p else p') Q := by
  rw [Parser.eat, Parser.atLexeme]
  simp only [bind_assoc, pure_bind]
  refine peek fun t => ?_
  split
  next is =>
    simp only [bind_assoc, pure_bind, if_true]
    have kind : t.kind = .word ∨ t.kind = .punct := by
      simp only [Token.is, Bool.and_eq_true, Bool.or_eq_true, decide_eq_true_eq] at is
      exact is.1
    cases kind with
    | inl word => exact .take word (by decide) fun _ => taken
    | inr punct => exact .take punct (by decide) fun _ => taken
  next =>
    simp only [pure_bind, Bool.false_eq_true, if_false]
    exact left.at t

theorem expect (text : String) : Leads P (expect text) InLine :=
  eat (pure ()) (refuse (by simp))

/-- A line goes on to its end, and the text does not end before. -/
theorem expectNewline : Leads InLine expectNewline fun _ => True := by
  rw [Parser.expectNewline, Parser.atNewline]
  simp only [bind_assoc, pure_bind]
  refine peek fun t => .ite (fun newline => ?_) fun _ => ?_
  · refine .advance ?_ (fun _ => trivial) fun _ => pure ()
    rw [of_decide_eq_true newline]
    decide
  · rintro start taken c lined takes inLine rfl ⟨near, -⟩
    exact takes.not_eof lined inLine ((takes.lined lined).eof c.current List.mem_cons_self near)

theorem skipNewline : Leads P skipNewline fun _ => True := by
  rw [Parser.skipNewline, Parser.atNewline]
  simp only [bind_assoc, pure_bind]
  refine peek fun t => .ite (fun newline => ?_) fun _ => ?_
  · refine .advance ?_ (fun _ => trivial) fun _ => pure ()
    rw [of_decide_eq_true newline]
    decide
  · exact ((pure ()).mono fun _ _ => trivial).at t

theorem name : Leads P name InLine := by
  refine peek fun t => .ite (fun is => ?_) fun _ => (refuse (by decide)).at t
  simp only [Token.isName, Bool.and_eq_true, decide_eq_true_eq] at is
  exact .take is.1 (by decide) fun _ => pure _

theorem memberName : Leads P memberName InLine :=
  peek fun t => .ite (fun word => .take word (by decide) fun _ => pure _)
    fun _ => (refuse (by decide)).at t

end Leads

/-! ## Expressions -/

/-- With this much nesting, expressions end within a line. What goes on after an operand
may take nothing at all. -/
structure LeadsExpressions (fuel : Nat) : Prop where
  expression : ∀ {P} least, Leads P (expression fuel least) InLine
  climb : ∀ {P} least lhs, Leads P (climb fuel least lhs) fun taken => P taken ∨ InLine taken
  operand : ∀ {P}, Leads P (operand fuel) InLine
  suffixes : ∀ {P} e, Leads P (suffixes fuel e) fun taken => P taken ∨ InLine taken
  subscript : ∀ {P} target, Leads P (subscript fuel target) InLine
  term : ∀ {P}, Leads P (term fuel) InLine
  elements : ∀ {P} close, Leads P (elements fuel close) InLine
  entries : ∀ {P}, Leads P (entries fuel) InLine

namespace LeadsExpressions

theorem zero : LeadsExpressions 0 where
  expression _ := .tooDeep
  climb _ _ := .tooDeep
  operand := .tooDeep
  suffixes _ := .tooDeep
  subscript _ := .tooDeep
  term := .tooDeep
  elements _ := .tooDeep
  entries := .tooDeep

variable (h : LeadsExpressions fuel)

include h

/-- What goes on within a line ends within one. -/
theorem climb_inLine (least : Nat) (lhs : Expr) :
    Leads InLine (Parser.climb fuel least lhs) InLine :=
  (h.climb least lhs).mono fun _ => or_self_iff.mp

theorem suffixes_inLine (e : Expr) : Leads InLine (Parser.suffixes fuel e) InLine :=
  (h.suffixes e).mono fun _ => or_self_iff.mp

theorem expression_succ (least : Nat) : Leads P (Parser.expression (fuel + 1) least) InLine :=
  .bind h.operand fun lhs => h.climb_inLine least lhs

theorem climb_succ (least : Nat) (lhs : Expr) :
    Leads P (Parser.climb (fuel + 1) least lhs) fun taken => P taken ∨ InLine taken := by
  have stay : Leads P (pure lhs) fun taken => P taken ∨ InLine taken :=
    (Leads.pure lhs).mono fun _ => .inl
  rw [Parser.climb]
  refine .peek fun t => ?_
  cases hc : Connective.ofToken? t with
  | none => exact stay.at t
  | some c =>
      refine .ite (fun _ => stay.at t) fun _ => .ite (fun _ => ?_) fun _ => ?_
      · exact (Leads.refuse_bind (by decide)).at t
      · refine .take (Connective.kind_of_ofToken? hc) (by decide) fun _ =>
          .bind (h.expression _) fun rhs => ?_
        exact (h.climb_inLine least _).mono fun _ => .inr

theorem operand_succ : Leads P (Parser.operand (fuel + 1)) InLine := by
  rw [Parser.operand]
  refine .peek fun t => ?_
  cases hop : UnaryOp.ofToken? t with
  | some op =>
      exact .take (UnaryOp.kind_of_ofToken? hop) (by decide) fun _ =>
        .bind h.operand fun e => .pure _
  | none => exact (Leads.bind h.term fun e => h.suffixes_inLine e).at t

theorem suffixes_succ (e : Expr) :
    Leads P (Parser.suffixes (fuel + 1) e) fun taken => P taken ∨ InLine taken := by
  have goOn : ∀ e, Leads InLine (Parser.suffixes fuel e) fun taken => P taken ∨ InLine taken :=
    fun e => (h.suffixes_inLine e).mono fun _ => .inr
  rw [Parser.suffixes]
  refine .eat ?_ (.eat ?_ (.eat ?_ ?_))
  · exact .bind .skipNewline fun _ => .bind (h.elements _) fun args => goOn _
  · exact .bind .memberName fun name => goOn _
  · exact .bind (h.subscript e) fun e => goOn e
  · exact (Leads.pure e).mono fun _ => .inl

/-- A bound of a slice, or nothing before the mark that would follow it. -/
theorem bound (text : String) {k : Expr → Parser Expr} (hk : ∀ {P} e, Leads P (k e) InLine) :
    Leads P (Parser.atLexeme text >>= fun found =>
      if found = true then pure .omitted >>= k else Parser.expression fuel 0 >>= k) InLine :=
  .bind (.atLexeme text) fun _ => .ite (.bind (.pure _) hk) (.bind (h.expression 0) hk)

theorem subscript_succ (target : Expr) :
    Leads P (Parser.subscript (fuel + 1) target) InLine := by
  rw [Parser.subscript]
  refine h.bound ":" fun start => .eat ?_ ?_
  · exact h.bound "]" fun stop => .bind (.expect _) fun _ => .pure _
  · exact .bind (.expect _) fun _ => .pure _

theorem term_succ : Leads P (Parser.term (fuel + 1)) InLine := by
  rw [Parser.term]
  refine .peek fun t => .ite (fun quote => ?_) fun _ => .ite (fun number => ?_) fun _ =>
    .ite (fun is => ?_) fun _ => Leads.at ?_ t
  · exact .take quote (by decide) fun _ => .pure _
  · exact .take number (by decide) fun _ => .pure _
  · simp only [Token.isName, Bool.and_eq_true, decide_eq_true_eq] at is
    exact .take is.1 (by decide) fun _ => .pure _
  refine .eat ?_ (.eat ?_ (.eat ?_ (.refuse (by decide))))
  · exact .bind .skipNewline fun _ => .bind (h.expression 0) fun e => .bind .skipNewline fun _ =>
      .bind (.expect _) fun _ => .pure e
  · exact .bind .skipNewline fun _ => .bind (h.elements _) fun items => .pure _
  · exact .bind .skipNewline fun _ => .bind h.entries fun entries => .pure _

theorem elements_succ (close : String) : Leads P (Parser.elements (fuel + 1) close) InLine := by
  rw [Parser.elements]
  refine .eat (.pure _) (.bind (h.expression 0) fun e => .bind .skipNewline fun _ => .eat ?_ ?_)
  · exact .bind .skipNewline fun _ => .bind (h.elements close) fun rest => .pure _
  · exact .bind (.expect _) fun _ => .pure _

theorem entries_succ : Leads P (Parser.entries (fuel + 1)) InLine := by
  rw [Parser.entries]
  refine .eat (.pure _) (.bind (h.expression 0) fun key => .bind (.expect _) fun _ => ?_)
  refine .bind (h.expression 0) fun value => .bind .skipNewline fun _ => .eat ?_ ?_
  · exact .bind .skipNewline fun _ => .bind h.entries fun entries => .pure _
  · exact .bind (.expect _) fun _ => .pure _

theorem succ : LeadsExpressions (fuel + 1) where
  expression := h.expression_succ
  climb := h.climb_succ
  operand := h.operand_succ
  suffixes := h.suffixes_succ
  subscript := h.subscript_succ
  term := h.term_succ
  elements := h.elements_succ
  entries := h.entries_succ

end LeadsExpressions

theorem leadsExpressions (fuel : Nat) : LeadsExpressions fuel := by
  induction fuel with
  | zero => exact .zero
  | succ fuel ih => exact ih.succ

namespace Leads

theorem expression (fuel least : Nat) : Leads P (expression fuel least) InLine :=
  (leadsExpressions fuel).expression least

theorem arguments (fuel : Nat) : Leads P (arguments fuel) InLine := by
  induction fuel generalizing P with
  | zero => exact tooDeep
  | succ fuel ih =>
      rw [Parser.arguments]
      exact bind (expression fuel 0) fun e => eat (bind ih fun rest => pure _) (pure _)

/-! ## Parts of statements -/

theorem names (fuel : Nat) : Leads P (names fuel) InLine := by
  induction fuel generalizing P with
  | zero => exact tooDeep
  | succ fuel ih =>
      rw [Parser.names]
      exact bind name fun first => eat (bind ih fun rest => pure _) (pure _)

theorem parameters (fuel : Nat) : Leads P (parameters fuel) InLine := by
  rw [Parser.parameters]
  refine bind (expect _) fun _ => eat (pure _) ?_
  exact bind (names fuel) fun params => bind (expect _) fun _ => pure _

theorem loopHeader : Leads P loopHeader InLine := by
  rw [Parser.loopHeader]
  refine bind name fun first => eat ?_ ?_
  · exact bind name fun second => bind (expect _) fun _ => pure _
  · exact bind (expect _) fun _ => pure _

theorem expressionStatement (fuel : Nat) : Leads P (expressionStatement fuel) InLine := by
  rw [Parser.expressionStatement]
  refine bind (expression fuel 0) fun e => eat ?_ ?_
  · refine bind name fun callee => peek fun t => Leads.at (ite ?_ ?_) t
    · exact bind (arguments fuel) fun more => pure _
    · exact bind (pure _) fun more => pure _
  · refine peek fun t => Leads.at (ite ?_ (pure _)) t
    exact bind (arguments fuel) fun args => pure _

end Leads

/-! ## Statements -/

variable {place : Place}

theorem LeadsAt.returnStatement (word : t.kind = .word) (fuel : Nat) :
    LeadsAt t P (returnStatement fuel place) InLine := by
  rw [Parser.returnStatement]
  refine .ite (fun _ => .take word (by decide) fun _ => ?_) fun _ => ?_
  · exact .bind .atNewline fun _ => .ite (.pure _) (.bind (.expression fuel 0) fun value => .pure _)
  · exact (Leads.refuse_bind (by decide)).at t

theorem LeadsAt.jump (word : t.kind = .word) (name : String) (s : Stmt) :
    LeadsAt t P (jump name place s) InLine := by
  rw [Parser.jump]
  refine .ite (fun _ => .take word (by decide) fun _ => .pure s) fun _ => ?_
  exact (Leads.refuse_bind (by simp)).at t

/-- With this much nesting, statements end within a line. A block leads anywhere. -/
structure LeadsStatements (fuel : Nat) : Prop where
  block : ∀ {P} place, Leads P (block fuel place) fun _ => True
  statement : ∀ {P} place, Leads P (statement fuel place) InLine
  loopBody : ∀ {P} place, Leads P (loopBody fuel place) InLine
  alternative : ∀ {P} place, Leads P (alternative fuel place) InLine
  arms : ∀ {P} place, Leads P (arms fuel place) InLine

namespace LeadsStatements

theorem zero : LeadsStatements 0 where
  block _ := .tooDeep
  statement _ := .tooDeep
  loopBody _ := .tooDeep
  alternative _ := .tooDeep
  arms _ := .tooDeep

variable (h : LeadsStatements fuel)

include h

theorem block_succ (place : Place) : Leads P (Parser.block (fuel + 1) place) fun _ => True := by
  rw [Parser.block]
  refine .bind .atBlockEnd fun _ => .ite ((Leads.pure _).mono fun _ _ => trivial) ?_
  refine .bind (h.statement place) fun s => .bind .expectNewline fun _ => ?_
  exact .bind (h.block place) fun rest => .pure _

theorem loopBody_succ (place : Place) : Leads P (Parser.loopBody (fuel + 1) place) InLine := by
  rw [Parser.loopBody]
  exact .bind (h.block _) fun body => .bind (.expect _) fun _ => .pure _

/-- A block with its `end`, after a line. -/
theorem closed (place : Place) {α : Type} (a : List Stmt → α) :
    Leads InLine (expectNewline >>= fun _ => Parser.block fuel place >>= fun body =>
      expect "end" >>= fun _ => pure (a body)) InLine :=
  .bind .expectNewline fun _ => .bind (h.block place) fun _ => .bind (.expect _) fun _ => .pure _

theorem alternative_succ (place : Place) :
    Leads P (Parser.alternative (fuel + 1) place) InLine := by
  rw [Parser.alternative]
  refine .eat ?_ (.eat (h.closed place _) (.bind (.expect _) fun _ => .pure _))
  refine .bind (.expression fuel 0) fun test => .bind .expectNewline fun _ => ?_
  exact .bind (h.block place) fun body => .bind (h.alternative place) fun rest => .pure _

theorem arms_succ (place : Place) : Leads P (Parser.arms (fuel + 1) place) InLine := by
  rw [Parser.arms]
  refine .eat ?_ (.eat (h.closed place _) (.bind (.expect _) fun _ => .pure _))
  refine .bind (.arguments fuel) fun patterns => .bind .expectNewline fun _ => ?_
  exact .bind (h.block place) fun body => .bind (h.arms place) fun rest => .pure _

theorem statement_succ (place : Place) : Leads P (Parser.statement (fuel + 1) place) InLine := by
  rw [Parser.statement]
  refine .peek fun t => .ite (fun _ => (Leads.expressionStatement fuel).at t) fun word => ?_
  have word : t.kind = .word := not_not.mp word
  have after {k : Token → Parser Stmt} (hk : ∀ t, Leads InLine (k t) InLine) :
      LeadsAt t P (advance >>= k) InLine :=
    .take word (by decide) hk
  split
  · refine after fun _ => .bind (.expression fuel 0) fun test => ?_
    refine .bind .expectNewline fun _ => .bind (h.block place) fun body => ?_
    exact .bind (h.alternative place) fun rest => .pure _
  · refine after fun _ => .bind (.expression fuel 0) fun test => ?_
    exact .bind .expectNewline fun _ => .bind (h.loopBody place) fun body => .pure _
  · refine after fun _ => .bind (.expression fuel 0) fun test => ?_
    exact .bind .expectNewline fun _ => .bind (h.loopBody place) fun body => .pure _
  · refine after fun _ => .bind .loopHeader fun header => .bind (.expression fuel 0) fun items => ?_
    exact .bind .expectNewline fun _ => .bind (h.loopBody place) fun body => .pure _
  · refine after fun _ => .bind (.expression fuel 0) fun subject => ?_
    exact .bind .expectNewline fun _ => .bind (h.arms place) fun arms => .pure _
  · refine after fun _ => .bind .name fun name => .bind (.parameters fuel) fun params => ?_
    exact h.closed _ _
  · exact .returnStatement word fuel
  · exact after fun _ => .bind (.names fuel) fun names => .pure _
  · exact .jump word "break" .break
  · exact .jump word "continue" .continue
  · exact after fun _ => .bind (.expression fuel 0) fun test => .pure _
  · exact after fun _ => .bind (.expression fuel 0) fun value => .pure _
  · refine after fun _ => .bind .expectNewline fun _ => .bind (h.block place) fun body => ?_
    refine .bind (.expect _) fun _ => .bind .name fun name => ?_
    exact h.closed place _
  · exact (Leads.expressionStatement fuel).at t

theorem succ : LeadsStatements (fuel + 1) where
  block := h.block_succ
  statement := h.statement_succ
  loopBody := h.loopBody_succ
  alternative := h.alternative_succ
  arms := h.arms_succ

end LeadsStatements

theorem leadsStatements (fuel : Nat) : LeadsStatements fuel := by
  induction fuel with
  | zero => exact .zero
  | succ fuel ih => exact ih.succ

theorem Leads.program (fuel : Nat) : Leads P (program fuel) fun _ => True := by
  rw [Parser.program]
  refine .bind .skipNewline fun _ => .bind ((leadsStatements fuel).block {}) fun _ => ?_
  exact peek fun t => Leads.at (ite (pure _) (refuse_bind (by decide))) t

/-- The productions of statements, of expressions and of their parts. A block and the
program are not among them, since they take whole lines. -/
inductive Production (t : Token) : {α : Type} → Parser α → Prop where
  | expression (fuel least : Nat) : Production t (expression fuel least)
  | climb (fuel least : Nat) (lhs : Expr) : Production t (climb fuel least lhs)
  | operand (fuel : Nat) : Production t (operand fuel)
  | suffixes (fuel : Nat) (e : Expr) : Production t (suffixes fuel e)
  | subscript (fuel : Nat) (target : Expr) : Production t (subscript fuel target)
  | term (fuel : Nat) : Production t (term fuel)
  | elements (fuel : Nat) (close : String) : Production t (elements fuel close)
  | entries (fuel : Nat) : Production t (entries fuel)
  | arguments (fuel : Nat) : Production t (arguments fuel)
  | names (fuel : Nat) : Production t (names fuel)
  | parameters (fuel : Nat) : Production t (parameters fuel)
  | loopHeader : Production t loopHeader
  | expressionStatement (fuel : Nat) : Production t (expressionStatement fuel)
  /-- These two begin at their word. -/
  | returnStatement (word : t.kind = .word) (fuel : Nat) (place : Place) :
      Production t (returnStatement fuel place)
  | jump (word : t.kind = .word) (name : String) (place : Place) (s : Stmt) :
      Production t (jump name place s)
  | statement (fuel : Nat) (place : Place) : Production t (statement fuel place)
  | loopBody (fuel : Nat) (place : Place) : Production t (loopBody fuel place)
  | alternative (fuel : Nat) (place : Place) : Production t (alternative fuel place)
  | arms (fuel : Nat) (place : Place) : Production t (arms fuel place)

/-- A production takes nothing, or what it takes last is not a line break. -/
theorem Production.leadsAt (h : Production t p) :
    LeadsAt t (· = []) p fun taken => taken = [] ∨ InLine taken := by
  have inLine {α : Type} {p : Parser α} (h : Leads (· = []) p InLine) :
      LeadsAt t (· = []) p fun taken => taken = [] ∨ InLine taken :=
    (h.mono fun _ => .inr).at t
  cases h with
  | expression fuel least => exact inLine (.expression fuel least)
  | climb fuel least lhs => exact ((leadsExpressions fuel).climb least lhs).at t
  | operand fuel => exact inLine (leadsExpressions fuel).operand
  | suffixes fuel e => exact ((leadsExpressions fuel).suffixes e).at t
  | subscript fuel target => exact inLine ((leadsExpressions fuel).subscript target)
  | term fuel => exact inLine (leadsExpressions fuel).term
  | elements fuel close => exact inLine ((leadsExpressions fuel).elements close)
  | entries fuel => exact inLine (leadsExpressions fuel).entries
  | arguments fuel => exact inLine (.arguments fuel)
  | names fuel => exact inLine (.names fuel)
  | parameters fuel => exact inLine (.parameters fuel)
  | loopHeader => exact inLine .loopHeader
  | expressionStatement fuel => exact inLine (.expressionStatement fuel)
  | returnStatement word fuel place => exact (LeadsAt.returnStatement word fuel).mono fun _ => .inr
  | jump word name place s => exact (LeadsAt.jump word name s).mono fun _ => .inr
  | statement fuel place => exact inLine ((leadsStatements fuel).statement place)
  | loopBody fuel place => exact inLine ((leadsStatements fuel).loopBody place)
  | alternative fuel place => exact inLine ((leadsStatements fuel).alternative place)
  | arms fuel place => exact inLine ((leadsStatements fuel).arms place)

end Parser

/-! ## Texts -/

namespace Lexer

variable {dollar : Bool} {line : Nat} {cs : List Char}

/-- Only the end of the text has its text. -/
theorem kind_of_eofText {t : Token} (h : t ∈ (tokensFrom dollar line cs).tokens)
    (text : t.text = Token.eofText) : t.kind = .eof := by
  fun_induction tokensFrom dollar line cs with
  | case1 line =>
      obtain rfl : t = Token.endOfText line := by simpa using h
      rfl
  | case2 => simp at h
  | case3 line cs c rest hd kind more hl slice after ih =>
      cases h with
      | tail _ h => exact ih h
      | head =>
          -- a lexeme does not begin with a blank, nor is a line feed one
          have blank : isBlank c = false := isBlank_of_dropWhile hd
          rw [tokenText] at text
          split at text
          · simp [Token.newlineText, Token.eofText] at text
          · have first : c = ' ' := by
              have chars := congrArg String.toList text
              simpa [slice, Token.eofText] using congrArg List.head? chars
            rw [first] at blank
            cases blank

/-- A text with a line feed does not begin with its end. -/
theorem kind_ne_eof_of_head (feed : '\n' ∈ cs) :
    ∀ t ∈ (tokensFrom dollar line cs).tokens.head?, t.kind ≠ .eof := by
  cases hd : cs.dropWhile isBlank with
  | nil => cases List.dropWhile_eq_nil_iff.mp hd '\n' feed
  | cons c rest =>
      cases hl : lexeme dollar c rest with
      | fault cause more =>
          rw [tokensFrom_fault hd hl]
          simp
      | item kind more =>
          rw [tokensFrom_item hd hl]
          rintro t ⟨⟩
          exact lexeme_ne_eof hl

/-- In a text that ends in a line feed, only a line break stands before the end. -/
theorem isChain_tokensFrom (ends : cs.getLast? = some '\n') :
    (tokensFrom dollar line cs).tokens.IsChain
      fun t next => next.kind = .eof → t.kind = .newline := by
  fun_induction tokensFrom dollar line cs with
  | case1 | case2 => simp
  | case3 line cs c rest hd kind more hl slice after ih =>
      obtain ⟨gap, rfl, blank⟩ := exists_gap hd
      have ends : (c :: rest).getLast? = some '\n' := by
        rwa [List.getLast?_append_of_ne_nil _ (List.cons_ne_nil _ _)] at ends
      rw [List.isChain_cons]
      rcases Nat.lt_or_ge more rest.length with left | whole
      · have later : (rest.drop more).getLast? = some '\n' := by
          rwa [← List.take_append_drop more rest, ← List.cons_append,
            List.getLast?_append_of_ne_nil _ (List.drop_eq_nil_iff.not.mpr (by omega))] at ends
        have other : ∀ next ∈ after.tokens.head?, next.kind ≠ .eof :=
          kind_ne_eof_of_head (List.mem_of_getLast? later)
        exact ⟨fun next first eof => absurd eof (other next first), ih later⟩
      · obtain ⟨newline, -⟩ := lexeme_append_of_le ends hl whole []
        have stop : after = ⟨[Token.endOfText (line + slice.count '\n')], none⟩ :=
          tokensFrom_nil (by rw [List.drop_of_length_le whole]; rfl)
        refine ⟨fun _ _ _ => newline, ?_⟩
        rw [stop]
        exact .singleton _

end Lexer

theorem getLast?_withFinalNewline (text : String) :
    (withFinalNewline text).toList.getLast? = some '\n' := by
  rw [withFinalNewline]
  split
  next ends => exact eq_of_beq ends
  next => simp

/-- A loaded text is read from a cursor of this kind. -/
theorem lined_of_cursor {dollar : Bool} {text : String} {c : Cursor}
    (h : (lex dollar (withFinalNewline text)).cursor = .ok c) : c.Lined := by
  obtain ⟨ended, tokens, fault⟩ := ended_of_cursor h
  refine ⟨ended, ?_, ?_, ?_⟩
  · rw [tokens]
    exact Lexer.isChain_tokensFrom (getLast?_withFinalNewline text)
  · rw [tokens]
    exact fun t ht => Lexer.kind_of_eofText ht
  · rw [fault]
    exact fun d hd what => Lexer.fault_ne_expected hd what

theorem Cause.eq_of_text {cause : Cause} (h : cause.text = "expected newline") :
    cause = .expected .newline := by
  cases cause with
  | unterminatedString | malformedNumber => exact absurd h (by decide)
  | expected what =>
      have rest : what.text = "newline" := (String.append_right_inj "expected ").mp h
      cases what with
      | newline => rfl
      | lexeme | insideFunction | insideLoop =>
          have first := congrArg (fun text : String => text.toList.head?) rest
          simp [Expectation.text] at first
      | _ => simp [Expectation.text] at rest
  | unexpectedCharacter c =>
      have lengths : ("unexpected character " ++ quotedCharacter c).length = _ :=
        congrArg String.length h
      rw [String.length_append] at lengths
      exact absurd (Nat.le.intro lengths) (by decide)

theorem Diagnostic.near_eq_of_nearText {d : Diagnostic} {rest : String}
    (h : d.nearText ++ rest = "end of file: expected newline") :
    d.near = Token.eofText ∧ rest = ": expected newline" := by
  rw [nearText] at h
  split at h
  next near => exact ⟨near, (String.append_right_inj "end of file").mp h⟩
  all_goals
    have first := congrArg (fun text : String => text.toList.head?) h
    simp at first

/-- The text of the message tells that a line break is missing at the end of the text. -/
theorem Diagnostic.wantsFinalNewline_of_message {d : Diagnostic} {file : String}
    (h : d.message file =
      file ++ ":" ++ toString d.line ++ ": end of file: expected newline") :
    d.WantsFinalNewline := by
  have same : d.nearText ++ (": " ++ d.cause.text) = "end of file: expected newline" := by
    rw [← String.append_right_inj (file ++ ":" ++ toString d.line ++ ": ")]
    have parts : ": end of file: expected newline" = ": " ++ "end of file: expected newline" := rfl
    rw [parts] at h
    simpa only [message, String.append_assoc] using h
  obtain ⟨near, rest⟩ := near_eq_of_nearText same
  exact ⟨near, Cause.eq_of_text ((String.append_right_inj ": ").mp rest)⟩

/-- A loaded text is not refused for want of a line break at its end. -/
theorem not_wantsFinalNewline {o : Options} {text : String} {d : Diagnostic}
    (h : parse o (withFinalNewline text) = .error d) : ¬d.WantsFinalNewline := by
  cases hc : (lex o.dollarIdentifiers (withFinalNewline text)).cursor with
  | error e =>
      obtain ⟨refused, fault⟩ := parse_of_cursor_error hc
      obtain rfl := Except.error.inj (refused.symm.trans h)
      exact fun wants => Lexer.fault_ne_expected fault _ wants.2
  | ok start =>
      have arrives := Parser.Leads.program (P := fun _ => True)
        (lex o.dollarIdentifiers (withFinalNewline text)).nesting start [] start
        (lined_of_cursor hc) (.refl start) trivial
      rw [parse, Lexed.parse, hc] at h
      dsimp only [Bind.bind, Except.bind] at h
      split at h
      · cases h
      next e run =>
        obtain rfl := Except.error.inj h
        rw [run] at arrives
        exact arrives
      · obtain rfl := Except.error.inj h
        rintro ⟨-, cause⟩
        cases cause

/-- The line feed at the end of a loaded text is all its last statement needs: no text is
refused because a line break is missing at its end. Wherever the parser stands at the end
of the text, a line break was taken last, if anything was; and no production of a statement
or an expression takes a line break last, wherever it begins. -/
theorem final_newline_suffices (o : Options) (text : String) :
    (∀ d, parse o (withFinalNewline text) = .error d → ∀ file, d.message file ≠
      file ++ ":" ++ toString d.line ++ ": end of file: expected newline") ∧
    ∀ start taken c, (lex o.dollarIdentifiers (withFinalNewline text)).cursor = .ok start →
      start.Takes taken c →
      (c.current.kind = .eof → taken = [] ∨ ∃ t ∈ taken.getLast?, t.kind = .newline) ∧
      ∀ {α : Type} (p : Parser α), Parser.Production c.current p →
        ∀ a c', p.run c = .ok (a, c') →
          ∃ used, c.Takes used c' ∧ ∀ t ∈ used.getLast?, t.kind ≠ .newline := by
  refine ⟨fun d h file message =>
    not_wantsFinalNewline h (Diagnostic.wantsFinalNewline_of_message message), ?_⟩
  intro start taken c hc takes
  have lined := lined_of_cursor hc
  constructor
  · intro eof
    rcases taken.eq_nil_or_concat' with rfl | ⟨before, t, rfl⟩
    · exact .inl rfl
    · exact .inr ⟨t, List.getLast?_concat, takes.newline_of_eof lined eof t List.getLast?_concat⟩
  · intro α p production a c' run
    have arrives := production.leadsAt c [] c (takes.lined lined) (.refl c) rfl rfl
    rw [run] at arrives
    obtain ⟨used, takes', ends⟩ := arrives
    refine ⟨used, takes', ?_⟩
    rcases ends with rfl | ⟨t, last, other⟩
    · exact nofun
    · intro t' last'
      obtain rfl := Option.mem_unique last last'
      exact other

end ScriptLang
