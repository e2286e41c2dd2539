import Mathlib.Data.List.Basic
import ScriptLang.Proofs.Parser.Answer

/-!
# What productions look at

A production is *prompt*: it takes tokens up to the one that it stops at, and its
answer is settled by those. Whatever follows them in another text, and whatever
fault lies behind them, the answer there is the same. Nor does a production run
out of nesting that is in proportion to the number of tokens.

`Prompt n m p q` says both of a production: with nesting for `n` tokens it is `p`,
which answers from every cursor with at most `n` tokens and leaves at most `m`;
with nesting `i` it is `q i`, which never contradicts `p`. Since every other
nesting is kept in view, answers may be compared between texts of any length.
-/

namespace ScriptLang

/-- All tokens that are left, the current one first. -/
def Cursor.tokens (c : Cursor) : List Token := c.current :: c.rest

/-- The text ends, unless a fault does: the last token that is left is the end of
the text. -/
def Cursor.Ended (c : Cursor) : Prop :=
  c.fault = none → ∃ t ∈ c.tokens.getLast?, t.kind = .eof

theorem Cursor.Ended.of_append {c c' : Cursor} {used : List Token} (hc : c.Ended)
    (ht : c.tokens = used ++ c'.tokens) (hf : c'.fault = c.fault) : c'.Ended := by
  intro none
  obtain ⟨t, last, eof⟩ := hc (hf ▸ none)
  refine ⟨t, ?_, eof⟩
  rwa [ht, Cursor.tokens, List.getLast?_append_of_ne_nil _ (List.cons_ne_nil _ _)] at last

/-- Where the tokens agree up to one of them, the current tokens do. -/
theorem Cursor.current_eq {c x : Cursor} {used tail tail' : List Token} {t : Token}
    (hc : c.tokens = used ++ t :: tail) (hx : x.tokens = used ++ t :: tail') :
    x.current = c.current := by
  cases used with
  | nil => exact (List.cons.inj hx).1.trans (List.cons.inj hc).1.symm
  | cons u used => exact (List.cons.inj hx).1.trans (List.cons.inj hc).1.symm

namespace Parser

variable {α β : Type} {n m l : Nat} {p : Parser α} {q : Nat → Parser α} {t : Token}

/-- Whatever its nesting, the production does not contradict a result: it has it, or
it needs more nesting. -/
def Grants (q : Nat → Parser α) (x : Cursor) (r : Except Stop (α × Cursor)) : Prop :=
  ∀ i, (q i).run x = r ∨ (q i).run x = .error .tooDeep

/-- A result from the cursor `c` that leaves at most `m` tokens and that `q` grants
wherever the tokens up to the one stopped at are the same. -/
def Settled (m : Nat) (q : Nat → Parser α) (c : Cursor) : Except Stop (α × Cursor) → Prop
  | .ok (a, c') => ∃ used, c.tokens = used ++ c'.tokens ∧ c'.fault = c.fault ∧
      c'.tokens.length ≤ m ∧ ∀ x tail, x.tokens = used ++ c'.current :: tail →
        Grants q x (.ok (a, ⟨c'.current, tail, x.fault⟩))
  | .error (.refused d) => c.fault = some d ∨
      ∃ used t tail what, c.tokens = used ++ t :: tail ∧ d = ⟨t.line, t.text, .expected what⟩ ∧
        ∀ x tail', x.tokens = used ++ t :: tail' → Grants q x (.error (.refused d))
  | .error .tooDeep => False

/-- From at most `n` tokens the production `p` leaves at most `m`, with a result that
the tokens up to the one stopped at settle for `q`. -/
def Prompt (n m : Nat) (p : Parser α) (q : Nat → Parser α) : Prop :=
  ∀ c, c.Ended → c.tokens.length ≤ n → Settled m q c (p.run c)

/-- The same for productions that begin at a given token. -/
def PromptAt (t : Token) (n m : Nat) (p : Parser α) (q : Nat → Parser α) : Prop :=
  ∀ c, c.Ended → c.tokens.length ≤ n → c.current = t → Settled m q c (p.run c)

/-! ## Results -/

theorem Grants.bind {x x' : Cursor} {a : α} {k : Nat → α → Parser β}
    {r : Except Stop (β × Cursor)} (hq : Grants q x (.ok (a, x')))
    (hk : Grants (fun i => k i a) x' r) : Grants (fun i => q i >>= k i) x r := by
  intro i
  rw [StateT.run_bind]
  rcases hq i with hq | hq
  · rw [hq]
    exact hk i
  · rw [hq]
    exact .inr rfl

theorem Grants.bind_error {x : Cursor} {d : Diagnostic} {k : Nat → α → Parser β}
    (hq : Grants q x (.error (.refused d))) :
    Grants (fun i => q i >>= k i) x (.error (.refused d)) := by
  intro i
  rw [StateT.run_bind]
  rcases hq i with hq | hq
  · rw [hq]
    exact .inl rfl
  · rw [hq]
    exact .inr rfl

/-- Without any nesting a production contradicts nothing. -/
theorem Grants.of_succ {x : Cursor} {r : Except Stop (α × Cursor)} (hq : q 0 = tooDeep)
    (h : Grants (fun i => q (i + 1)) x r) : Grants q x r := by
  intro i
  cases i with
  | zero =>
      rw [hq]
      exact .inr rfl
  | succ i => exact h i

namespace Settled

variable {c : Cursor} {r : Except Stop (α × Cursor)}

/-- A settled answer is granted where it was given. -/
theorem grants {a : α} {c' : Cursor} (h : Settled m q c (.ok (a, c'))) :
    Grants q c (.ok (a, c')) := by
  obtain ⟨used, ht, hf, -, granted⟩ := h
  have here := granted c c'.rest ht
  rwa [← hf] at here

theorem mono {m' : Nat} (h : Settled m q c r) (hm : m ≤ m') : Settled m' q c r := by
  match r with
  | .ok (a, c') =>
      obtain ⟨used, ht, hf, hl, grants⟩ := h
      exact ⟨used, ht, hf, hl.trans hm, grants⟩
  | .error (.refused d) => exact h
  | .error .tooDeep => exact h

/-- What is granted from the same current token on is granted by both. -/
theorem imp {q' : Nat → Parser α} (h : Settled m q c r)
    (hq : ∀ x r, x.current = c.current → Grants q x r → Grants q' x r) : Settled m q' c r := by
  match r with
  | .ok (a, c') =>
      obtain ⟨used, ht, hf, hm, grants⟩ := h
      exact ⟨used, ht, hf, hm, fun x tail hx => hq x _ (Cursor.current_eq ht hx) (grants x tail hx)⟩
  | .error (.refused d) =>
      rcases h with hf | ⟨used, t, tail, what, ht, hd, grants⟩
      · exact .inl hf
      · exact .inr ⟨used, t, tail, what, ht, hd,
          fun x tail' hx => hq x _ (Cursor.current_eq ht hx) (grants x tail' hx)⟩
  | .error .tooDeep => exact h

/-- A result of the second production is one of both, when the first has taken the
tokens `used`. -/
theorem after {c' : Cursor} {used : List Token} {a : α} {k : Nat → α → Parser β}
    {r : Except Stop (β × Cursor)} (ht : c.tokens = used ++ c'.tokens) (hf : c'.fault = c.fault)
    (hq : ∀ x tail, x.tokens = used ++ c'.current :: tail →
      Grants q x (.ok (a, ⟨c'.current, tail, x.fault⟩)))
    (h : Settled m (fun i => k i a) c' r) : Settled m (fun i => q i >>= k i) c r := by
  -- where the tokens agree up to a later one, the first production stops as it did
  have reach : ∀ {used' tail tail' : List Token} {t : Token} {x : Cursor}
      {r : Except Stop (β × Cursor)}, c'.tokens = used' ++ t :: tail →
      x.tokens = (used ++ used') ++ t :: tail' →
      (∀ x', x'.fault = x.fault → x'.tokens = used' ++ t :: tail' →
        Grants (fun i => k i a) x' r) →
      Grants (fun i => q i >>= k i) x r := by
    intro used' tail tail' t x r hc' hx granted
    obtain ⟨rest, hrest⟩ : ∃ rest, used' ++ t :: tail' = c'.current :: rest := by
      cases used' with
      | nil => exact ⟨tail', by rw [(List.cons.inj hc').1]; rfl⟩
      | cons u used' => exact ⟨used' ++ t :: tail', by rw [(List.cons.inj hc').1]; rfl⟩
    rw [List.append_assoc, hrest] at hx
    exact (hq x rest hx).bind (granted ⟨c'.current, rest, x.fault⟩ rfl hrest.symm)
  match r with
  | .ok (b, c'') =>
      obtain ⟨used', ht', hf', hm, granted⟩ := h
      refine ⟨used ++ used', ?_, hf'.trans hf, hm, fun x tail hx => ?_⟩
      · rw [ht, ht', List.append_assoc]
      · refine reach ht' hx fun x' fault hx' => ?_
        rw [← fault]
        exact granted x' tail hx'
  | .error (.refused d) =>
      rcases h with hd | ⟨used', t, tail, what, ht', hd, granted⟩
      · exact .inl (hf ▸ hd)
      · refine .inr ⟨used ++ used', t, tail, what, ?_, hd, fun x tail' hx => ?_⟩
        · rw [ht, ht', List.append_assoc]
        · exact reach ht' hx fun x' _ hx' => granted x' tail' hx'
  | .error .tooDeep => exact h

end Settled

/-- Whatever is taken before the end of the text, there is a token behind it. -/
theorem tokens_of_advance {c c' : Cursor} {t : Token} (ended : c.Ended) (other : c.current.kind ≠ .eof)
    (h : advance.run c = .ok (t, c')) :
    c.tokens = c.current :: c'.tokens ∧ c'.fault = c.fault := by
  obtain ⟨current, rest, fault⟩ := c
  cases rest with
  | cons next rest =>
      cases h
      exact ⟨rfl, rfl⟩
  | nil =>
      cases fault with
      | some d => cases h
      | none =>
          obtain ⟨t, last, eof⟩ := ended rfl
          obtain rfl : current = t := by simpa [Cursor.tokens] using last
          exact absurd eof other

/-! ## Putting productions together -/

theorem Prompt.at (h : Prompt n m p q) (t : Token) : PromptAt t n m p q :=
  fun c hc hn _ => h c hc hn

theorem PromptAt.ite {b : Prop} [Decidable b] {p' : Parser α} {q' : Nat → Parser α}
    (hp : b → PromptAt t n m p q) (hq : ¬b → PromptAt t n m p' q') :
    PromptAt t n m (if b then p else p') (fun i => if b then q i else q' i) := by
  split
  next h => exact hp h
  next h => exact hq h

namespace Prompt

/-- There is no cursor without a token. -/
theorem of_eq_zero (h : n = 0) : Prompt n m p q := by
  intro c _ hn
  simp [Cursor.tokens, h] at hn

theorem mono {m' : Nat} (h : Prompt n m p q) (hm : m ≤ m') : Prompt n m' p q :=
  fun c hc hn => (h c hc hn).mono hm

theorem of_succ (hq : q 0 = tooDeep) (h : Prompt n m p fun i => q (i + 1)) : Prompt n m p q :=
  fun c hc hn => (h c hc hn).imp fun _ _ _ grants => .of_succ hq grants

theorem ite {b : Prop} [Decidable b] {p' : Parser α} {q' : Nat → Parser α}
    (hp : b → Prompt n m p q) (hq : ¬b → Prompt n m p' q') :
    Prompt n m (if b then p else p') (fun i => if b then q i else q' i) := by
  split
  next h => exact hp h
  next h => exact hq h

theorem pure (a : α) (hm : n ≤ m) : Prompt n m (pure a) (fun _ => pure a) := by
  intro c _ hn
  refine ⟨[], rfl, rfl, hn.trans hm, fun x tail hx i => .inl ?_⟩
  obtain ⟨current, rest⟩ := List.cons.inj hx
  rw [← current, ← rest]
  rfl

theorem refuse (what : Expectation) :
    Prompt n m (refuse what : Parser α) (fun _ => refuse what) := by
  intro c _ _
  refine .inr ⟨[], c.current, c.rest, what, rfl, rfl, fun x tail hx i => .inl ?_⟩
  rw [← (List.cons.inj hx).1]
  rfl

theorem bind {k : α → Parser β} {k' : Nat → α → Parser β} (hp : Prompt n l p q)
    (hk : ∀ a, Prompt l m (k a) (fun i => k' i a)) :
    Prompt n m (p >>= k) (fun i => q i >>= k' i) := by
  intro c hc hn
  have first := hp c hc hn
  rw [StateT.run_bind]
  match hr : p.run c with
  | .ok (a, c') =>
      rw [hr] at first
      obtain ⟨used, ht, hf, hl, grants⟩ := first
      exact .after ht hf grants (hk a c' (hc.of_append ht hf) hl)
  | .error (.refused d) =>
      rw [hr] at first
      refine first.imp_right ?_
      rintro ⟨used, t, tail, what, ht, hd, grants⟩
      exact ⟨used, t, tail, what, ht, hd, fun x tail' hx => (grants x tail' hx).bind_error⟩
  | .error .tooDeep =>
      rw [hr] at first
      exact first

theorem refuse_bind {what : Expectation} {k : α → Parser β} {k' : Nat → α → Parser β} :
    Prompt n m (Parser.refuse what >>= k) (fun i => Parser.refuse what >>= k' i) :=
  .bind (refuse what) fun _ => .of_eq_zero rfl

/-! ## The cursor -/

/-- A production that looks at the current token first. -/
theorem peek {k : Token → Parser α} {k' : Nat → Token → Parser α}
    (h : ∀ t, PromptAt t n m (k t) (fun i => k' i t)) :
    Prompt n m (peek >>= k) (fun i => peek >>= k' i) := by
  intro c hc hn
  refine (h c.current c hc hn rfl).imp fun x r hx grants i => ?_
  rw [← hx] at grants
  exact grants i

end Prompt

/-- Taking the token that was looked at, which is not the end of the text. -/
theorem PromptAt.advance {k : Token → Parser α} {k' : Nat → Token → Parser α} (eof : t.kind ≠ .eof)
    (h : Prompt (n - 1) m (k t) (fun i => k' i t)) :
    PromptAt t n m (advance >>= k) (fun i => advance >>= k' i) := by
  rintro ⟨current, rest, fault⟩ hc hn rfl
  cases rest with
  | cons next rest =>
      let c' : Cursor := ⟨next, rest, fault⟩
      have ht : Cursor.tokens ⟨current, next :: rest, fault⟩ = [current] ++ c'.tokens := rfl
      have hc' : c'.Ended := hc.of_append ht rfl
      have hn' : c'.tokens.length ≤ n - 1 := by
        simp only [c', Cursor.tokens, List.length_cons] at hn ⊢
        omega
      refine .after ht rfl ?_ (h c' hc' hn')
      rintro ⟨_, _, fault'⟩ tail hx i
      obtain ⟨rfl, rfl⟩ := List.cons.inj hx
      exact .inl rfl
  | nil =>
      cases fault with
      | some d => exact .inl rfl
      | none =>
          obtain ⟨t, ht, kind⟩ := hc rfl
          obtain rfl : current = t := by simpa [Cursor.tokens] using ht
          exact absurd kind eof

namespace Prompt

/-- A token is taken or left. -/
theorem eat {text : String} {p' : Parser α} {q' : Nat → Parser α} (taken : Prompt (n - 1) m p q)
    (left : Prompt n m p' q') :
    Prompt n m (eat text >>= fun found => if found = true then p else p')
      (fun i => eat text >>= fun found => if found = true then q i else q' i) := by
  unfold Parser.eat Parser.atLexeme
  simp only [bind_assoc, pure_bind]
  refine peek fun t => ?_
  split
  next is =>
    simp only [bind_assoc, pure_bind, if_true]
    refine .advance ?_ taken
    intro eof
    simp [Token.is, eof] at is
  next =>
    simp only [pure_bind, Bool.false_eq_true, if_false]
    exact left.at t

theorem atLexeme (text : String) : Prompt n n (atLexeme text) (fun _ => atLexeme text) :=
  peek fun t => (pure (t.is text) le_rfl).at t

theorem atNewline : Prompt n n atNewline (fun _ => atNewline) :=
  peek fun t => (pure (decide (t.kind = .newline)) le_rfl).at t

theorem atBlockEnd : Prompt n n atBlockEnd (fun _ => atBlockEnd) :=
  peek fun t => (pure _ le_rfl).at t

theorem expect (text : String) : Prompt n (n - 1) (expect text) (fun _ => expect text) :=
  eat (pure () le_rfl) (refuse _)

theorem expectNewline : Prompt n (n - 1) expectNewline (fun _ => expectNewline) := by
  unfold Parser.expectNewline Parser.atNewline
  simp only [bind_assoc, pure_bind]
  refine peek fun t => .ite (fun newline => .advance ?_ (pure () le_rfl)) fun _ => (refuse _).at t
  intro eof
  simp [eof] at newline

theorem skipNewline : Prompt n n skipNewline (fun _ => skipNewline) := by
  unfold Parser.skipNewline Parser.atNewline
  simp only [bind_assoc, pure_bind]
  refine peek fun t => .ite (fun newline => .advance ?_ (pure () (Nat.sub_le n 1))) fun _ =>
    (pure () le_rfl).at t
  intro eof
  simp [eof] at newline

theorem name : Prompt n (n - 1) name (fun _ => name) := by
  refine peek fun t => .ite (fun word => .advance ?_ (pure t.text le_rfl)) fun _ =>
    (refuse _).at t
  intro eof
  simp [Token.isName, eof] at word

theorem memberName : Prompt n (n - 1) memberName (fun _ => memberName) := by
  refine peek fun t => .ite (fun word => .advance ?_ (pure t.text le_rfl)) fun _ =>
    (refuse _).at t
  intro eof
  simp [eof] at word

end Prompt

end Parser

end ScriptLang
