import ScriptLang.Proofs.Program.WellFormed

/-!
# What productions answer

`Yields p P` says that the production `p` answers nothing but what has the
property `P`, from whatever cursor over the tokens of a text. It is closed under
the ways in which productions are put together, so a production is dealt with
piece by piece, with the productions it calls as given.

A production that looks at the current token before it takes it knows more about
what it takes: `YieldsAt t p P` is for productions that begin at the token `t`.
-/

namespace ScriptLang

open Lexer

/-- A word, a number or a string is one by itself. -/
def Token.Genuine (dollar : Bool) (t : Token) : Prop :=
  keepsText t.kind = true → LexesAs dollar t.kind t.text

/-- All tokens from the current one on are genuine. -/
def Cursor.Genuine (dollar : Bool) (c : Cursor) : Prop :=
  ∀ t ∈ c.current :: c.rest, t.Genuine dollar

namespace Parser

variable {α β : Type} {dollar : Bool} {p q : Parser α} {P Q : α → Prop}

/-- Whatever the production answers has the property. -/
def Yields (dollar : Bool) (p : Parser α) (P : α → Prop) : Prop :=
  ∀ c, c.Genuine dollar → ∀ a c', p.run c = .ok (a, c') → P a ∧ c'.Genuine dollar

/-- The same for productions that begin at a given token. -/
def YieldsAt (dollar : Bool) (t : Token) (p : Parser α) (P : α → Prop) : Prop :=
  ∀ c, c.Genuine dollar → c.current = t → ∀ a c', p.run c = .ok (a, c') → P a ∧ c'.Genuine dollar

theorem Yields.at (h : Yields dollar p P) (t : Token) : YieldsAt dollar t p P :=
  fun c hc _ => h c hc

theorem Yields.pure {a : α} (h : P a) : Yields dollar (pure a) P := by
  intro c hc a' c' hr
  cases hr
  exact ⟨h, hc⟩

theorem Yields.throw (stop : Stop) : Yields dollar (throw stop : Parser α) P :=
  fun _ _ _ _ hr => nomatch hr

theorem run_bind_eq_ok {k : α → Parser β} {c : Cursor} {r : β × Cursor} :
    (p >>= k).run c = .ok r ↔ ∃ a c', p.run c = .ok (a, c') ∧ (k a).run c' = .ok r := by
  rw [StateT.run_bind]
  cases p.run c with
  | error e =>
      constructor
      · exact fun h => nomatch h
      · rintro ⟨_, _, h, _⟩
        cases h
  | ok x =>
      obtain ⟨a, c'⟩ := x
      constructor
      · exact fun h => ⟨a, c', rfl, h⟩
      · rintro ⟨a', c'', h, hk⟩
        cases h
        exact hk

theorem Yields.bind {R : β → Prop} {k : α → Parser β} (hp : Yields dollar p P)
    (hk : ∀ a, P a → Yields dollar (k a) R) : Yields dollar (p >>= k) R := by
  intro c hc b c' hr
  obtain ⟨a, c₁, hr₁, hr⟩ := run_bind_eq_ok.mp hr
  obtain ⟨ha, hc₁⟩ := hp c hc a c₁ hr₁
  exact hk a ha c₁ hc₁ b c' hr

theorem Yields.ite {b : Prop} [Decidable b] (hp : b → Yields dollar p P)
    (hq : ¬b → Yields dollar q P) : Yields dollar (if b then p else q) P := by
  split
  next h => exact hp h
  next h => exact hq h

theorem YieldsAt.ite {t : Token} {b : Prop} [Decidable b] (hp : b → YieldsAt dollar t p P)
    (hq : ¬b → YieldsAt dollar t q P) : YieldsAt dollar t (if b then p else q) P := by
  split
  next h => exact hp h
  next h => exact hq h

/-! ## The cursor -/

/-- A production that looks at the current token first. -/
theorem Yields.peek {k : Token → Parser α} (h : ∀ t, YieldsAt dollar t (k t) P) :
    Yields dollar (peek >>= k) P :=
  fun c hc a c' hr => h c.current c hc rfl a c' hr

theorem genuine_advance {c c' : Cursor} {t : Token} (hc : c.Genuine dollar)
    (hr : advance.run c = .ok (t, c')) : t = c.current ∧ c'.Genuine dollar := by
  obtain ⟨current, rest, fault⟩ := c
  cases rest with
  | cons next rest =>
      obtain ⟨rfl, rfl⟩ : t = current ∧ c' = ⟨next, rest, fault⟩ := by
        cases hr
        exact ⟨rfl, rfl⟩
      exact ⟨rfl, fun t ht => hc t (List.mem_cons_of_mem _ ht)⟩
  | nil =>
      cases fault with
      | some d => cases hr
      | none =>
          cases hr
          exact ⟨rfl, hc⟩

/-- Taking the token that was looked at. -/
theorem YieldsAt.advance {t : Token} {k : Token → Parser α}
    (h : t.Genuine dollar → Yields dollar (k t) P) : YieldsAt dollar t (advance >>= k) P := by
  rintro c hc rfl a c' hr
  obtain ⟨t, c₁, hr₁, hr⟩ := run_bind_eq_ok.mp hr
  obtain ⟨rfl, hc₁⟩ := genuine_advance hc hr₁
  exact h (hc _ List.mem_cons_self) c₁ hc₁ a c' hr

/-- Taking whatever token is current. -/
theorem Yields.advance : Yields dollar advance (Token.Genuine dollar) := by
  intro c hc t c' hr
  obtain ⟨rfl, hc'⟩ := genuine_advance hc hr
  exact ⟨hc _ List.mem_cons_self, hc'⟩

theorem Yields.refuse (what : Expectation) : Yields dollar (refuse what : Parser α) P :=
  .peek fun _ => (Yields.throw _).at _

theorem Yields.tooDeep : Yields dollar (tooDeep : Parser α) P := .throw _

theorem Yields.atLexeme (text : String) : Yields dollar (atLexeme text) fun _ => True :=
  .peek fun t => (Yields.pure trivial).at t

theorem Yields.atNewline : Yields dollar atNewline fun _ => True :=
  .peek fun t => (Yields.pure trivial).at t

theorem Yields.eat (text : String) : Yields dollar (eat text) fun _ => True := by
  refine .bind (.atLexeme text) fun _ _ => .ite (fun _ => ?_) fun _ => .pure trivial
  exact .bind .advance fun _ _ => .pure trivial

/-- A production that tests the current token first. -/
theorem Yields.atLexeme_bind {text : String} {k : Bool → Parser α}
    (h : ∀ t, YieldsAt dollar t (k (t.is text)) P) : Yields dollar (Parser.atLexeme text >>= k) P :=
  fun c hc a c' hr => h c.current c hc rfl a c' hr

/-- A token that was found to be there is taken. -/
theorem YieldsAt.eat_of_is {text : String} {t : Token} {k : Bool → Parser α}
    (ht : t.is text = true) (h : Yields dollar (k true) P) :
    YieldsAt dollar t (Parser.eat text >>= k) P := by
  have found : YieldsAt dollar t (Parser.eat text) (· = true) := by
    rintro c hc rfl found c' hr
    obtain ⟨b, c₁, hr₁, hr⟩ := run_bind_eq_ok.mp hr
    obtain ⟨rfl, rfl⟩ : b = c.current.is text ∧ c₁ = c := by
      cases hr₁
      exact ⟨rfl, rfl⟩
    rw [if_pos ht] at hr
    exact Yields.bind (R := (· = true)) .advance (fun _ _ => .pure rfl) c₁ hc found c' hr
  intro c hc hct a c' hr
  obtain ⟨b, c₁, hr₁, hr⟩ := run_bind_eq_ok.mp hr
  obtain ⟨rfl, hc₁⟩ := found c hc hct b c₁ hr₁
  exact h c₁ hc₁ a c' hr

theorem Yields.expect (text : String) : Yields dollar (expect text) fun _ => True := by
  refine .bind (.eat text) fun found _ => ?_
  cases found with
  | false => exact .refuse _
  | true => exact .pure trivial

theorem Yields.expectNewline : Yields dollar expectNewline fun _ => True := by
  refine .bind .atNewline fun _ _ => .ite (fun _ => ?_) fun _ => .refuse _
  exact .bind .advance fun _ _ => .pure trivial

theorem Yields.skipNewline : Yields dollar skipNewline fun _ => True := by
  refine .bind .atNewline fun _ _ => .ite (fun _ => ?_) fun _ => .pure trivial
  exact .bind .advance fun _ _ => .pure trivial

theorem Yields.atBlockEnd : Yields dollar atBlockEnd fun _ => True :=
  .peek fun t => (Yields.pure trivial).at t

theorem isName_of_genuine {t : Token} (ht : t.Genuine dollar) (hn : t.isName = true) :
    IsName dollar t.text := by
  simp only [Token.isName, Bool.and_eq_true, decide_eq_true_eq, Bool.not_eq_true'] at hn
  have lexes := ht (by rw [hn.1]; rfl)
  rw [hn.1] at lexes
  exact ⟨lexes, hn.2⟩

theorem Yields.name : Yields dollar name (IsName dollar) :=
  .peek fun t => .ite (fun hn => .advance fun ht => .pure (isName_of_genuine ht hn)) fun _ =>
    (Yields.refuse _).at t

theorem Yields.memberName : Yields dollar memberName (LexesAs dollar .word) := by
  refine .peek fun t => .ite (fun hw => .advance fun ht => .pure ?_) fun _ => (Yields.refuse _).at t
  have lexes := ht (by rw [hw]; rfl)
  rwa [hw] at lexes

end Parser

end ScriptLang
