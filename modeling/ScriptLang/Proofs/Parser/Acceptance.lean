import ScriptLang.Proofs.Parser.Answer
import ScriptLang.Proofs.Token.Piece

/-!
# What productions accept

`Reads p before after P` says that the production `p` answers when the pieces
`before` are in front of it, that its answer has the property `P`, and that it
leaves `after`. The lines of the tokens play no part, except that the answer may
mention them.

Tests of the current token are decided by its piece, so every rule for a test
comes with the piece that decides it.
-/

namespace ScriptLang

open Piece

/-- The piece as a token on a line. -/
def Piece.at (p : Piece) (line : Nat) : Token := ⟨p.1, p.2, line⟩

/-- A word or punctuation mark spelled exactly `text`. -/
def Piece.is (p : Piece) (text : String) : Bool :=
  (p.1 = .word || p.1 = .punct) && p.2 = text

/-- The piece in front; behind the last one the text ends. -/
def front (ps : List Piece) : Piece := ps.headD eof

/-- The tokens from the current one on are these pieces, and no fault follows. -/
def Cursor.Spells (c : Cursor) (ps : List Piece) : Prop :=
  c.fault = none ∧ (c.current :: c.rest).map Token.piece = ps ++ [eof]

namespace Parser

variable {α β : Type} {p q : Parser α} {ps before after : List Piece} {P : α → Prop}

/-- The production reads `before` down to `after`, with an answer that has the
property. -/
def Reads (p : Parser α) (before after : List Piece) (P : α → Prop) : Prop :=
  ∀ c, c.Spells before → ∃ a c', p.run c = .ok (a, c') ∧ P a ∧ c'.Spells after

namespace Reads

theorem pure {a : α} (h : P a) : Reads (pure a) ps ps P :=
  fun c hc => ⟨a, c, rfl, h, hc⟩

theorem imp {Q : α → Prop} (h : Reads p before after P) (hPQ : ∀ a, P a → Q a) :
    Reads p before after Q := by
  intro c hc
  obtain ⟨a, c', hr, ha, hc'⟩ := h c hc
  exact ⟨a, c', hr, hPQ a ha, hc'⟩

theorem bind {R : β → Prop} {k : α → Parser β} (hp : Reads p before ps P)
    (hk : ∀ a, P a → Reads (k a) ps after R) : Reads (p >>= k) before after R := by
  intro c hc
  obtain ⟨a, c₁, hr, ha, hc₁⟩ := hp c hc
  obtain ⟨b, c', hr', hb, hc'⟩ := hk a ha c₁ hc₁
  exact ⟨b, c', run_bind_eq_ok.mpr ⟨a, c₁, hr, hr'⟩, hb, hc'⟩

theorem of_true {b : Prop} [Decidable b] (hb : b) (h : Reads p before after P) :
    Reads (if b then p else q) before after P := by
  rwa [if_pos hb]

theorem of_false {b : Prop} [Decidable b] (hb : ¬b) (h : Reads q before after P) :
    Reads (if b then p else q) before after P := by
  rwa [if_neg hb]

/-! ## The cursor -/

theorem current_of_spells {c : Cursor} (h : c.Spells ps) :
    ∃ line, c.current = (front ps).at line := by
  refine ⟨c.current.line, ?_⟩
  have first : c.current.piece = front ps := by
    have heads := congrArg List.head? h.2
    cases ps with
    | nil => simpa [front] using heads
    | cons p rest => simpa [front] using heads
  rw [← first]
  rfl

theorem peek {k : Token → Parser β} {R : β → Prop}
    (h : ∀ line, Reads (k ((front before).at line)) before after R) :
    Reads (peek >>= k) before after R := by
  intro c hc
  obtain ⟨line, ht⟩ := current_of_spells hc
  obtain ⟨a, c', hr, rest⟩ := h line c hc
  refine ⟨a, c', ?_, rest⟩
  rw [← ht] at hr
  exact hr

theorem advance {p : Piece} {k : Token → Parser β} {R : β → Prop}
    (h : ∀ line, Reads (k (p.at line)) before after R) :
    Reads (advance >>= k) (p :: before) after R := by
  rintro ⟨current, rest, fault⟩ hc
  obtain ⟨line, rfl⟩ := current_of_spells hc
  obtain ⟨rfl, hp⟩ := hc
  cases rest with
  | nil => simp at hp
  | cons next rest =>
      have hc : Cursor.Spells ⟨next, rest, none⟩ before := ⟨rfl, (List.cons.inj hp).2⟩
      obtain ⟨a, c', hr, ha⟩ := h line _ hc
      exact ⟨a, c', run_bind_eq_ok.mpr ⟨_, _, rfl, hr⟩, ha⟩

/-- A test that the token in front passes. -/
theorem atLexeme_true {text : String} {k : Bool → Parser β} {R : β → Prop}
    (hp : (front before).is text = true)
    (h : Reads (k true) before after R) : Reads (atLexeme text >>= k) before after R :=
  bind (P := (· = true)) (peek fun _ => pure hp) fun _ hb => hb ▸ h

theorem atLexeme_false {text : String} {k : Bool → Parser β} {R : β → Prop}
    (hp : (front before).is text = false)
    (h : Reads (k false) before after R) : Reads (atLexeme text >>= k) before after R :=
  bind (P := (· = false)) (peek fun _ => pure hp) fun _ hb => hb ▸ h

/-- A token that is there is taken. -/
theorem eat_true {x : Piece} {text : String} (hx : x.is text = true)
    (h : Reads p before after P) :
    Reads (eat text >>= fun found => if found = true then p else q) (x :: before) after P := by
  have taken : Reads (eat text) (x :: before) before (· = true) :=
    atLexeme_true hx (of_true rfl (advance fun _ => pure rfl))
  refine bind taken ?_
  rintro _ rfl
  exact of_true rfl h

theorem eat_false {text : String} (hx : (front before).is text = false)
    (h : Reads q before after P) :
    Reads (eat text >>= fun found => if found = true then p else q) before after P := by
  have left : Reads (eat text) before before (· = false) :=
    atLexeme_false hx (of_false Bool.false_ne_true (pure rfl))
  refine bind left ?_
  rintro _ rfl
  exact of_false Bool.false_ne_true h

theorem expect {x : Piece} {text : String} {k : Unit → Parser β} {R : β → Prop}
    (hx : x.is text = true) (h : Reads (k ()) before after R) :
    Reads (expect text >>= k) (x :: before) after R :=
  bind (P := fun _ => True) (eat_true hx (pure trivial)) fun _ _ => h

theorem atNewline {k : Bool → Parser β} {R : β → Prop}
    (h : Reads (k (decide ((front before).1 = .newline))) before after R) :
    Reads (atNewline >>= k) before after R :=
  bind (P := (· = decide ((front before).1 = .newline))) (peek fun _ => pure rfl)
    fun _ hb => hb ▸ h

theorem expectNewline {k : Unit → Parser β} {R : β → Prop} (h : Reads (k ()) before after R) :
    Reads (expectNewline >>= k) (lineBreak :: before) after R := by
  refine bind (P := fun _ => True) (atNewline (of_true rfl ?_)) fun _ _ => h
  exact advance fun _ => pure trivial

/-- No line break is there to be skipped. -/
theorem skipNewline {k : Unit → Parser β} {R : β → Prop} (hp : (front before).1 ≠ .newline)
    (h : Reads (k ()) before after R) : Reads (skipNewline >>= k) before after R :=
  bind (P := fun _ => True) (atNewline (of_false (by simpa using hp) (pure trivial))) fun _ _ => h

theorem name {x : String} {k : String → Parser β} {R : β → Prop}
    (hx : Token.isKeyword x = false) (h : Reads (k x) before after R) :
    Reads (name >>= k) (word x :: before) after R := by
  refine bind (P := (· = x)) (peek fun line => of_true ?_ ?_) fun _ hb => hb ▸ h
  · simp [Token.isName, front, Piece.at, word, hx]
  · exact advance fun _ => pure rfl

end Reads

end Parser

end ScriptLang
