import ScriptLang.Proofs.Parser.Append
import ScriptLang.Proofs.Parser.FinalNewline

/-!
# What stands behind an expression

An expression ends where a token can neither go on with an operand nor connect it to another
one. Which token that is does not matter: where the same tokens are followed by another one of
this kind, they are the same expression. Productions that take their closing mark do not look
at what stands behind it at all.

`Repeats P Q p` says of a production that the tokens it takes have the property `Q`, and that
it answers the same where a token with the property `P` follows them instead of the one that
it stopped at. It is closed under the ways in which productions are put together.
-/

namespace ScriptLang

/-- The token goes on with nothing that stands before it. -/
def Token.EndsExpression (t : Token) : Prop :=
  Connective.ofToken? t = none ∧ ∀ text ∈ ["(", ".", "["], t.is text = false

/-- No token, or the last of them is no line break. -/
def StaysInLine (taken : List Token) : Prop := taken = [] ∨ InLine taken

theorem InLine.ne_nil {taken : List Token} (h : InLine taken) : taken ≠ [] := by
  rintro rfl
  obtain ⟨t, last, -⟩ := h
  cases last

theorem InLine.append_left {taken : List Token} (h : InLine taken) (before : List Token) :
    InLine (before ++ taken) := by
  obtain ⟨t, last, other⟩ := h
  refine ⟨t, ?_, other⟩
  rw [List.getLast?_append, Option.mem_def.mp last]
  rfl

theorem InLine.append {taken more : List Token} (h : InLine taken) (hm : StaysInLine more) :
    InLine (taken ++ more) := by
  rcases hm with rfl | hm
  · rwa [List.append_nil]
  · exact hm.append_left taken

namespace Cursor

variable {c c' : Cursor} {t : Token} {taken : List Token}

theorem Takes.eq (h : c.Takes [] c') : c = c' := eq_of_tokens h.1 h.2.symm

theorem Takes.current_eq (h : c.Takes (t :: taken) c') : c.current = t := (List.cons.inj h.1).1

/-- Where tokens are to be taken before a cursor, there is one to begin with. -/
theorem exists_takes (taken : List Token) (c' : Cursor) : ∃ c : Cursor, c.Takes taken c' := by
  obtain ⟨c, tokens, fault⟩ := exists_over (taken ++ c'.tokens) c'.fault (by simp [tokens])
  exact ⟨c, tokens, fault.symm⟩

end Cursor

namespace Parser

variable {α β : Type} {p p' : Parser α} {t : Token} {fuel : Nat} {P P' : Token → Prop}
  {Q Q' : List Token → Prop} {used used' : List Token} {c c₁ c' : Cursor} {a : α} {b : β}

/-- From one cursor to the other the production takes the tokens and answers. It does so
wherever the tokens are followed by the token that it stopped at or by one with the property. -/
def RepeatsRun (P : Token → Prop) (p : Parser α) (used : List Token) (a : α) (c c' : Cursor) :
    Prop :=
  c.Takes used c' ∧ ∀ x x' : Cursor, x.Takes used x' → x'.current = c'.current ∨ P x'.current →
    p.run x = .ok (a, x')

/-- Whenever the production answers, the tokens that it took have the second property, and it
answers the same in front of tokens that have the first one. -/
def Repeats (P : Token → Prop) (Q : List Token → Prop) (p : Parser α) : Prop :=
  ∀ c a c', c.Ended → p.run c = .ok (a, c') → ∃ used, Q used ∧ RepeatsRun P p used a c c'

/-- The same for productions that begin at a given token. -/
def RepeatsAt (t : Token) (P : Token → Prop) (Q : List Token → Prop) (p : Parser α) : Prop :=
  ∀ c a c', c.Ended → c.current = t → p.run c = .ok (a, c') →
    ∃ used, Q used ∧ RepeatsRun P p used a c c'

/-- The production takes the token that closes it, so what follows does not matter. -/
abbrev Closed (p : Parser α) : Prop := Repeats (fun _ => True) InLine p

theorem RepeatsRun.mono (h : RepeatsRun P p used a c c') (hP : ∀ t, P' t → P t) :
    RepeatsRun P' p used a c c' :=
  ⟨h.1, fun x x' takes stop => h.2 x x' takes (stop.imp_right (hP _))⟩

/-- Behind the first production the second one takes a token, or it stops where the first one
may stop. -/
theorem RepeatsRun.bind {k : α → Parser β} (hp : RepeatsRun P' p used a c c₁)
    (hk : RepeatsRun P (k a) used' b c₁ c') (stops : used' ≠ [] ∨ ∀ t, P t → P' t) :
    RepeatsRun P (p >>= k) (used ++ used') b c c' := by
  obtain ⟨first, again⟩ := hp
  obtain ⟨second, again'⟩ := hk
  refine ⟨first.trans second, fun x x' takes stop => ?_⟩
  obtain ⟨x₁, takes'⟩ := Cursor.exists_takes used' x'
  have before : x.Takes used x₁ := by
    refine ⟨?_, takes'.2.symm.trans takes.2⟩
    rw [takes.1, takes'.1, List.append_assoc]
  have here : x₁.current = c₁.current ∨ P' x₁.current := by
    cases used' with
    | cons u used' => exact .inl (takes'.current_eq.trans second.current_eq.symm)
    | nil =>
        obtain rfl := takes'.eq
        obtain rfl := second.eq
        exact stop.imp_right ((stops.resolve_left (· rfl)) _)
  exact run_bind_eq_ok.mpr ⟨a, x₁, again x x₁ before here, again' x₁ x' takes' stop⟩

/-- A production that looks at a token and then takes it begins at no other one. -/
theorem RepeatsRun.peek {k : Token → Parser α} (some : used ≠ [])
    (h : RepeatsRun P (k c.current) used a c c') : RepeatsRun P (peek >>= k) used a c c' := by
  obtain ⟨takes, again⟩ := h
  refine ⟨takes, fun x x' takes' stop => ?_⟩
  obtain ⟨t, rest, rfl⟩ := List.exists_cons_of_ne_nil some
  have same : x.current = c.current := takes'.current_eq.trans takes.current_eq.symm
  have run := again x x' takes' stop
  rwa [← same] at run

theorem Repeats.at (h : Repeats P Q p) (t : Token) : RepeatsAt t P Q p :=
  fun c a c' ended _ => h c a c' ended

theorem RepeatsAt.ite {b : Prop} [Decidable b] (hp : b → RepeatsAt t P Q p)
    (hq : ¬b → RepeatsAt t P Q p') : RepeatsAt t P Q (if b then p else p') := by
  split
  next h => exact hp h
  next h => exact hq h

/-- Taking the token that was looked at, which is neither a line break nor the end. -/
theorem RepeatsAt.advance {k : Token → Parser α} {kind : Token.Kind} (ht : t.kind = kind)
    (inLine : kind ≠ .eof ∧ kind ≠ .newline) (h : ∀ t, Repeats P StaysInLine (k t)) :
    RepeatsAt t P InLine (advance >>= k) := by
  subst ht
  rintro c a c' ended rfl run
  obtain ⟨t, c₁, first, run⟩ := run_bind_eq_ok.mp run
  have takes : c.Takes [c.current] c₁ := tokens_of_advance ended inLine.1 first
  obtain rfl : t = c.current :=
    congrArg Prod.fst (Except.ok.inj (first.symm.trans (run_advance takes.1 takes.2)))
  obtain ⟨used, stays, repeated⟩ := h _ c₁ a c' (ended.of_append takes.1 takes.2) run
  have taken : RepeatsRun P advance [c.current] c.current c c₁ := by
    refine ⟨takes, fun x x' takes' _ => ?_⟩
    have same := takes'.current_eq
    rw [← same] at takes' ⊢
    exact run_advance takes'.1 takes'.2
  exact ⟨_, InLine.append ⟨_, rfl, inLine.2⟩ stays, taken.bind repeated (.inr fun _ => id)⟩

theorem RepeatsAt.advance_of_is {text : String} (is : t.is text = true)
    (taken : Repeats P StaysInLine p) : RepeatsAt t P InLine (Parser.advance >>= fun _ => p) := by
  simp only [Token.is, Bool.and_eq_true, Bool.or_eq_true, decide_eq_true_eq] at is
  rcases is.1 with word | punct
  · exact .advance word (by decide) fun _ => taken
  · exact .advance punct (by decide) fun _ => taken

/-- A token is looked at, and taken if it is spelled like this. -/
theorem eat_bind (text : String) (p p' : Parser α) :
    (eat text >>= fun found => if found = true then p else p') =
      peek >>= fun t => if t.is text = true then advance >>= fun _ => p else p' := by
  rw [Parser.eat, Parser.atLexeme]
  simp only [bind_assoc, pure_bind]
  refine bind_congr fun t => ?_
  split <;> simp

namespace Repeats

theorem mono (h : Repeats P Q p) (hP : ∀ t, P' t → P t) (hQ : ∀ used, Q used → Q' used) :
    Repeats P' Q' p := by
  intro c a c' ended run
  obtain ⟨used, taken, repeated⟩ := h c a c' ended run
  exact ⟨used, hQ used taken, repeated.mono hP⟩

theorem stays (h : Repeats P InLine p) : Repeats P StaysInLine p :=
  h.mono (fun _ => id) fun _ => .inr

/-- What takes its closing mark may be followed by anything. -/
theorem before (h : Closed p) (P : Token → Prop) : Repeats P InLine p :=
  h.mono (fun _ _ => trivial) fun _ => id

theorem pure (a : α) : Repeats P StaysInLine (pure a) := by
  rintro c _ _ - ⟨⟩
  refine ⟨[], .inl rfl, .refl c, fun x x' takes _ => ?_⟩
  rw [takes.eq]
  rfl

theorem throw (stop : Stop) : Repeats P Q (throw stop : Parser α) := fun _ _ _ _ run => nomatch run

theorem tooDeep : Repeats P Q (tooDeep : Parser α) := throw _

theorem refuse (what : Expectation) : Repeats P Q (refuse what : Parser α) :=
  fun _ _ _ _ run => nomatch run

theorem refuse_bind {what : Expectation} {k : α → Parser β} :
    Repeats P Q (Parser.refuse what >>= k) := by
  intro c b c' _ run
  obtain ⟨_, _, run, -⟩ := run_bind_eq_ok.mp run
  cases run

/-- The second production takes a token, so it is the same one that the first stops at. -/
theorem bind {k : α → Parser β} (hp : Repeats P' Q p) (hk : ∀ a, Repeats P InLine (k a)) :
    Repeats P InLine (p >>= k) := by
  intro c b c' ended run
  obtain ⟨a, c₁, first, run⟩ := run_bind_eq_ok.mp run
  obtain ⟨used, -, repeated⟩ := hp c a c₁ ended first
  obtain ⟨used', inLine, repeated'⟩ :=
    hk a c₁ b c' (ended.of_append repeated.1.1 repeated.1.2) run
  exact ⟨_, inLine.append_left used, repeated.bind repeated' (.inl inLine.ne_nil)⟩

/-- The second production may take no token. -/
theorem bind_stays {k : α → Parser β} (hp : Repeats P InLine p)
    (hk : ∀ a, Repeats P StaysInLine (k a)) : Repeats P InLine (p >>= k) := by
  intro c b c' ended run
  obtain ⟨a, c₁, first, run⟩ := run_bind_eq_ok.mp run
  obtain ⟨used, inLine, repeated⟩ := hp c a c₁ ended first
  obtain ⟨used', stays, repeated'⟩ :=
    hk a c₁ b c' (ended.of_append repeated.1.1 repeated.1.2) run
  exact ⟨_, inLine.append stays, repeated.bind repeated' (.inr fun _ => id)⟩

theorem ite {b : Prop} [Decidable b] (hp : Repeats P Q p) (hq : Repeats P Q p') :
    Repeats P Q (if b then p else p') := by
  split
  · exact hp
  · exact hq

/-! ## The cursor -/

/-- A production that looks at the current token first and takes it. -/
theorem peek {k : Token → Parser α} (h : ∀ t, RepeatsAt t P InLine (k t)) :
    Repeats P InLine (peek >>= k) := by
  intro c a c' ended run
  obtain ⟨used, inLine, repeated⟩ := h c.current c a c' ended rfl run
  exact ⟨used, inLine, repeated.peek inLine.ne_nil⟩

/-- A production that looks at the current token first and takes it or goes on with another
one, as it does wherever it may stop. -/
theorem peek_stays {k : Token → Parser α} (left : Repeats P StaysInLine p)
    (ends : ∀ t, P t → k t = p) (h : ∀ t, k t = p ∨ RepeatsAt t P InLine (k t)) :
    Repeats P StaysInLine (Parser.peek >>= k) := by
  intro c a c' ended run
  have here : (k c.current).run c = .ok (a, c') := run
  rcases h c.current with other | taken
  · rw [other] at here
    obtain ⟨used, stays, takes, again⟩ := left c a c' ended here
    refine ⟨used, stays, takes, fun x x' takes' stop => ?_⟩
    have same : k x.current = p := by
      cases used with
      | cons t used => rw [takes'.current_eq, ← takes.current_eq, other]
      | nil =>
          obtain rfl := takes'.eq
          obtain rfl := takes.eq
          rcases stop with same | property
          · rw [same, other]
          · exact ends _ property
    have run' := again x x' takes' stop
    rwa [← same] at run'
  · obtain ⟨used, inLine, repeated⟩ := taken c a c' ended rfl here
    exact ⟨used, .inr inLine, repeated.peek inLine.ne_nil⟩

/-- A token is taken, or it is left to a production that takes one. -/
theorem eat {text : String} (taken : Repeats P StaysInLine p) (left : Repeats P InLine p') :
    Repeats P InLine (eat text >>= fun found => if found = true then p else p') := by
  rw [eat_bind]
  exact peek fun t => .ite (.advance_of_is · taken) fun _ => left.at t

/-- A token is taken, or it is left to a production that may take none. -/
theorem eat_stays {text : String} (ends : ∀ t, P t → t.is text = false)
    (taken : Repeats P StaysInLine p) (left : Repeats P StaysInLine p') :
    Repeats P StaysInLine (Parser.eat text >>= fun found => if found = true then p else p') := by
  rw [eat_bind]
  refine peek_stays left (fun t stop => if_neg (by simp [ends t stop])) fun t => ?_
  by_cases is : t.is text = true
  · exact .inr (by rw [if_pos is]; exact .advance_of_is is taken)
  · exact .inl (if_neg is)

theorem expect (text : String) : Closed (expect text) := eat (pure ()) (refuse _)

/-- Whether there is a line break to be skipped is seen at the token in front. -/
theorem skipNewline : Repeats (fun _ => False) (fun _ => True) skipNewline := by
  intro c _ c' ended run
  obtain ⟨tokens, fault⟩ := tokens_of_skipNewline ended run
  by_cases newline : c.current.kind = .newline
  · have rest : c'.tokens = c.rest := tokens.trans (if_pos newline)
    refine ⟨[c.current], trivial, ⟨by rw [rest]; rfl, fault⟩, fun x x' takes _ => ?_⟩
    exact run_skipNewline (by rw [takes.1]; exact (if_pos newline).symm) takes.2
  · obtain rfl := Cursor.eq_of_tokens (tokens.trans (if_neg newline)) fault
    refine ⟨[], trivial, .refl _, fun x x' takes stop => ?_⟩
    obtain rfl := takes.eq
    refine run_skipNewline (if_neg ?_).symm rfl
    rwa [stop.resolve_right id]

theorem memberName : Closed memberName :=
  peek fun t => .ite (fun word => .advance word (by decide) fun _ => pure _)
    fun _ => (refuse _).at t

end Repeats

/-! ## Expressions -/

/-- With this much nesting, what follows an expression may be anything that ends one, and what
follows a closing mark may be anything. -/
structure RepeatsExpressions (fuel : Nat) : Prop where
  expression : ∀ least, Repeats Token.EndsExpression InLine (expression fuel least)
  climb : ∀ least lhs, Repeats Token.EndsExpression StaysInLine (climb fuel least lhs)
  operand : Repeats Token.EndsExpression InLine (operand fuel)
  suffixes : ∀ e, Repeats Token.EndsExpression StaysInLine (suffixes fuel e)
  subscript : ∀ target, Closed (subscript fuel target)
  term : Closed (term fuel)
  elements : ∀ close, Closed (elements fuel close)
  entries : Closed (entries fuel)

namespace RepeatsExpressions

theorem zero : RepeatsExpressions 0 where
  expression _ := .tooDeep
  climb _ _ := .tooDeep
  operand := .tooDeep
  suffixes _ := .tooDeep
  subscript _ := .tooDeep
  term := .tooDeep
  elements _ := .tooDeep
  entries := .tooDeep

variable (h : RepeatsExpressions fuel)

include h

theorem expression_succ (least : Nat) :
    Repeats Token.EndsExpression InLine (Parser.expression (fuel + 1) least) :=
  .bind_stays h.operand fun lhs => h.climb least lhs

theorem climb_succ (least : Nat) (lhs : Expr) :
    Repeats Token.EndsExpression StaysInLine (Parser.climb (fuel + 1) least lhs) := by
  rw [Parser.climb]
  refine .peek_stays (.pure lhs) (fun t ends => by rw [ends.1]) fun t => ?_
  cases hc : Connective.ofToken? t with
  | none => exact .inl rfl
  | some c =>
      by_cases looser : c.precedence < least
      · exact .inl (if_pos looser)
      · refine .inr ?_
        simp only [if_neg looser]
        refine .ite (fun _ => Repeats.refuse_bind.at t) fun _ => ?_
        refine .advance (Connective.kind_of_ofToken? hc) (by decide) fun _ => ?_
        exact (Repeats.bind_stays (h.expression _) fun rhs => h.climb _ _).stays

theorem operand_succ : Repeats Token.EndsExpression InLine (Parser.operand (fuel + 1)) := by
  rw [Parser.operand]
  refine .peek fun t => ?_
  cases hop : UnaryOp.ofToken? t with
  | some op =>
      refine .advance (UnaryOp.kind_of_ofToken? hop) (by decide) fun _ => ?_
      exact (Repeats.bind_stays h.operand fun e => .pure _).stays
  | none => exact (Repeats.bind_stays (h.term.before _) fun e => h.suffixes e).at t

theorem suffixes_succ (e : Expr) :
    Repeats Token.EndsExpression StaysInLine (Parser.suffixes (fuel + 1) e) := by
  have other {text : String} (mem : text ∈ ["(", ".", "["]) :
      ∀ t : Token, t.EndsExpression → t.is text = false := fun t ends => ends.2 text mem
  rw [Parser.suffixes]
  refine .eat_stays (other (by decide)) ?_ (.eat_stays (other (by decide)) ?_
    (.eat_stays (other (by decide)) ?_ (.pure e)))
  · refine (Repeats.bind .skipNewline fun _ => ?_).stays
    exact .bind_stays ((h.elements ")").before _) fun args => h.suffixes _
  · exact (Repeats.bind_stays (Repeats.memberName.before _) fun name => h.suffixes _).stays
  · exact (Repeats.bind_stays ((h.subscript e).before _) h.suffixes).stays

/-- A bound of a slice, or nothing before the mark that would follow it. -/
theorem bound (text : String) {k : Expr → Parser Expr} (hk : ∀ e, Closed (k e)) :
    Closed (Parser.atLexeme text >>= fun found =>
      if found = true then pure .omitted >>= k else Parser.expression fuel 0 >>= k) := by
  rw [Parser.atLexeme]
  simp only [bind_assoc, pure_bind]
  refine .peek fun t => Repeats.at (.ite (hk _) ?_) t
  exact .bind (h.expression 0) hk

theorem subscript_succ (target : Expr) : Closed (Parser.subscript (fuel + 1) target) := by
  rw [Parser.subscript]
  refine h.bound ":" fun start => .eat ?_ ?_
  · exact (h.bound "]" fun stop => .bind_stays (.expect _) fun _ => .pure _).stays
  · exact .bind_stays (.expect _) fun _ => .pure _

theorem term_succ : Closed (Parser.term (fuel + 1)) := by
  rw [Parser.term]
  refine .peek fun t => .ite (fun quote => ?_) fun _ => .ite (fun number => ?_) fun _ =>
    .ite (fun is => ?_) fun _ => Repeats.at ?_ t
  · exact .advance quote (by decide) fun _ => .pure _
  · exact .advance number (by decide) fun _ => .pure _
  · simp only [Token.isName, Bool.and_eq_true, decide_eq_true_eq] at is
    exact .advance is.1 (by decide) fun _ => .pure _
  refine .eat (Repeats.stays ?_) (.eat (Repeats.stays ?_) (.eat (Repeats.stays ?_) (.refuse _)))
  · exact .bind .skipNewline fun _ => .bind (h.expression 0) fun e => .bind .skipNewline fun _ =>
      .bind_stays (.expect _) fun _ => .pure e
  · exact .bind .skipNewline fun _ => .bind_stays (h.elements _) fun items => .pure _
  · exact .bind .skipNewline fun _ => .bind_stays h.entries fun entries => .pure _

theorem elements_succ (close : String) : Closed (Parser.elements (fuel + 1) close) := by
  rw [Parser.elements]
  refine .eat (.pure _) (.bind (h.expression 0) fun e => .bind .skipNewline fun _ =>
    .eat (Repeats.stays ?_) ?_)
  · exact .bind .skipNewline fun _ => .bind_stays (h.elements close) fun rest => .pure _
  · exact .bind_stays (.expect _) fun _ => .pure _

theorem entries_succ : Closed (Parser.entries (fuel + 1)) := by
  rw [Parser.entries]
  refine .eat (.pure _) (.bind (h.expression 0) fun key => .bind (.expect _) fun _ => ?_)
  refine .bind (h.expression 0) fun value => .bind .skipNewline fun _ =>
    .eat (Repeats.stays ?_) ?_
  · exact .bind .skipNewline fun _ => .bind_stays h.entries fun rest => .pure _
  · exact .bind_stays (.expect _) fun _ => .pure _

theorem succ : RepeatsExpressions (fuel + 1) where
  expression := h.expression_succ
  climb := h.climb_succ
  operand := h.operand_succ
  suffixes := h.suffixes_succ
  subscript := h.subscript_succ
  term := h.term_succ
  elements := h.elements_succ
  entries := h.entries_succ

end RepeatsExpressions

theorem repeatsExpressions (fuel : Nat) : RepeatsExpressions fuel := by
  induction fuel with
  | zero => exact .zero
  | succ fuel ih => exact ih.succ

end Parser

end ScriptLang
