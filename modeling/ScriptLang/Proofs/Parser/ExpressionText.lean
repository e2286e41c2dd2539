import ScriptLang.Proofs.Parser.Stopping
import ScriptLang.Proofs.Parser.Written
import ScriptLang.Proofs.Token.Separated

/-!
# Texts that are expressions

An expression text is one that is read as an expression to its end, however it is spelled. Its
pieces begin like an expression, and they are read as the same expression wherever they stand
and whatever stands behind them, as long as it goes on with no expression. How much nesting is
allowed does not matter either, given enough for the pieces.
-/

namespace ScriptLang

open Piece Lexer

variable {dollar : Bool} {text : String} {e : Expr} {ps : List Piece}

/-- The whole text is read as the expression. -/
def IsExpression (dollar : Bool) (text : String) (e : Expr) : Prop :=
  ∃ fuel start last, (lex dollar text).cursor = .ok start ∧
    (Parser.expression fuel 0).run start = .ok (e, last) ∧ last.current.kind = .eof

/-- The piece goes on with nothing that stands before it, on whatever line. -/
def Piece.EndsExpression (p : Piece) : Prop := (p.at 0).EndsExpression

theorem Piece.EndsExpression.ofToken? {p : Piece} (h : p.EndsExpression) (line : Nat) :
    Connective.ofToken? (p.at line) = none := h.1

theorem Piece.EndsExpression.endsTerm {p : Piece} (h : p.EndsExpression) : p.EndsTerm := h.2

theorem Piece.endsExpression_of_ends {p : Piece} (h : p ∈ ends) : p.EndsExpression :=
  ⟨connective_of_ends h 0, endsTerm_of_ends h⟩

/-- The pieces begin like an expression, and are read as it in front of what ends one. -/
structure ReadsAs (ps : List Piece) (e : Expr) : Prop where
  opens : (front ps).Opens
  starts : ((front ps).at 0).startsArgument = true
  reads : ∀ fuel tail, 8 * ps.length + 3 ≤ fuel → (front tail).EndsExpression →
    Parser.Reads (Parser.expression fuel 0) (ps ++ tail) tail (· = e)

/-! ## The first token -/

namespace Token

theorem startsArgument_of_is {t : Token} {text : String} (is : t.is text = true)
    (mem : text ∈ ["(", "[", "\x7b"]) : t.startsArgument = true := by
  have begins : ∀ text ∈ ["(", "[", "\x7b"], isKeyword text = false ∧
      text ∈ ["(", "[", "\x7b", "!", "~", "-"] := by decide
  obtain ⟨free, mark⟩ := begins text mem
  simp only [Token.is, Bool.and_eq_true, Bool.or_eq_true, decide_eq_true_eq] at is
  obtain ⟨kind, rfl⟩ := is
  rcases kind with word | punct
  · simp [startsArgument, word, free]
  · simpa [startsArgument, punct] using mark

theorem startsArgument_of_unary {t : Token} {op : UnaryOp} (h : UnaryOp.ofToken? t = some op) :
    t.startsArgument = true := by
  have known : ∀ op ∈ UnaryOp.all, op.spelling ∈ ["(", "[", "\x7b", "!", "~", "-"] := by decide
  have punct := UnaryOp.kind_of_ofToken? h
  rw [UnaryOp.ofToken?, if_pos punct] at h
  have spells := List.find?_some h
  have mark := known op (List.mem_of_find?_eq_some h)
  rw [eq_of_beq spells] at mark
  simpa [startsArgument, punct] using mark

/-- What can begin an argument begins an expression and nothing else. -/
theorem opens_of_startsArgument {t : Token} (genuine : t.Genuine dollar)
    (starts : t.startsArgument = true) : t.piece.Opens := by
  obtain ⟨kind, text, line⟩ := t
  cases kind with
  | number | quote => exact ⟨by rintro ⟨⟩, by rintro ⟨⟩, fun _ _ => rfl⟩
  | word =>
      have free : isKeyword text = false := by simpa [startsArgument] using starts
      exact opens_name ⟨genuine rfl, free⟩
  | punct => exact opens_mark (List.contains_iff_mem.mp starts)
  | newline | eof => cases starts

end Token

namespace Parser

variable {α β : Type} {p p' : Parser α} {t : Token} {fuel : Nat} {c last x x' : Cursor}

/-- The production does not answer at the token. -/
def Fails (t : Token) (p : Parser α) : Prop := ∀ c, c.current = t → ∀ r, p.run c ≠ .ok r

namespace Fails

theorem tooDeep : Fails t (tooDeep : Parser α) := fun _ _ _ => nofun

theorem refuse (what : Expectation) : Fails t (refuse what : Parser α) := fun _ _ _ => nofun

theorem bind {k : α → Parser β} (h : Fails t p) : Fails t (p >>= k) := by
  intro c here r run
  obtain ⟨a, c₁, run, -⟩ := run_bind_eq_ok.mp run
  exact h c here _ run

theorem peek {k : Token → Parser α} (h : Fails t (k t)) : Fails t (peek >>= k) := by
  rintro c rfl
  exact h c rfl

theorem eat {text : String} (other : t.is text = false) (h : Fails t p') :
    Fails t (eat text >>= fun found => if found = true then p else p') := by
  rw [eat_bind]
  refine peek ?_
  rwa [if_neg (by simp [other])]

variable (other : t.startsArgument = false)

include other

theorem term (fuel : Nat) : Fails t (term fuel) := by
  cases fuel with
  | zero => exact tooDeep
  | succ fuel =>
      have mark (text : String) (mem : text ∈ ["(", "[", "\x7b"]) : t.is text = false :=
        Bool.eq_false_of_not_eq_true fun is =>
          Bool.false_ne_true (other.symm.trans (Token.startsArgument_of_is is mem))
      rw [Parser.term]
      refine peek ?_
      rw [if_neg, if_neg, if_neg]
      · exact eat (mark _ (by decide)) (eat (mark _ (by decide))
          (eat (mark _ (by decide)) (refuse _)))
      all_goals
        intro atom
        simp_all [Token.startsArgument, Token.isName]

theorem operand (fuel : Nat) : Fails t (operand fuel) := by
  cases fuel with
  | zero => exact tooDeep
  | succ fuel =>
      rw [Parser.operand]
      refine peek ?_
      cases hop : UnaryOp.ofToken? t with
      | some op =>
          exact absurd (other.symm.trans (Token.startsArgument_of_unary hop)) Bool.false_ne_true
      | none => exact bind (term other fuel)

theorem expression (fuel least : Nat) : Fails t (expression fuel least) := by
  cases fuel with
  | zero => exact tooDeep
  | succ fuel => exact bind (operand other fuel)

end Fails

theorem startsArgument_of_expression {r : Expr × Cursor} {least : Nat}
    (h : (expression fuel least).run c = .ok r) : c.current.startsArgument = true :=
  Bool.eq_true_of_not_eq_false fun other => Fails.expression other fuel least c rfl r h

/-! ## Nesting and lines -/

/-- With nesting enough for the tokens, an expression is read as it is with any other. -/
theorem run_expression_of_fits {fuel' : Nat} {r : Expr × Cursor} (ended : c.Ended)
    (fault : c.fault = none) (h : (expression fuel 0).run c = .ok r)
    (fits : 8 * c.tokens.length ≤ fuel' + 5) : (expression fuel' 0).run c = .ok r := by
  have settled := Prompt.expression 0 fits c ended le_rfl
  match hr : (expression fuel' 0).run c with
  | .ok r' =>
      rw [hr] at settled
      rcases settled.grants fuel with same | deep
      · exact (same.symm.trans h)
      · cases h.symm.trans deep
  | .error (.refused d) =>
      rw [hr] at settled
      rcases settled with failed | ⟨used, t, tail, what, tokens, -, granted⟩
      · cases fault.symm.trans failed
      · rcases granted c tail tokens fuel with same | deep
        · cases h.symm.trans same
        · cases h.symm.trans deep
  | .error .tooDeep =>
      rw [hr] at settled
      exact settled.elim

/-- Tokens with the same pieces are read as the same expression. -/
theorem run_expression_of_pieces (fault : c.fault = none) (fault' : x.fault = none)
    (same : x.tokens.map Token.piece = c.tokens.map Token.piece)
    (h : (expression fuel 0).run c = .ok (e, last)) :
    ∃ last', (expression fuel 0).run x = .ok (e, last') ∧
      last'.tokens.map Token.piece = last.tokens.map Token.piece := by
  let unlined : Nat → Nat := fun _ => 0
  have pieces (ts : List Token) :
      (ts.map (Token.mapLine unlined)).map Token.piece = ts.map Token.piece := by
    rw [List.map_map]
    rfl
  have tokens (ts : List Token) :
      ts.map (Token.mapLine unlined) = (ts.map Token.piece).map (·.at 0) := by
    rw [List.map_map]
    rfl
  have alike : x.mapLines unlined = c.mapLines unlined := by
    refine Cursor.eq_of_tokens ?_ ?_
    · rw [Cursor.mapLines_tokens, Cursor.mapLines_tokens, tokens, tokens, same]
    · rw [Cursor.mapLines, Cursor.mapLines, fault, fault']
  have steady := (steadyExpressions unlined fuel).expression 0
  have there := steady c
  rw [h, ← alike, steady x] at there
  match hr : (expression fuel 0).run x with
  | .ok (e', last') =>
      rw [hr] at there
      obtain ⟨rfl, lines⟩ := Prod.mk.inj (Except.ok.inj there)
      refine ⟨last', rfl, ?_⟩
      rw [← pieces, ← pieces last.tokens, ← Cursor.mapLines_tokens, lines, Cursor.mapLines_tokens]
  | .error stop =>
      rw [hr] at there
      cases there

/-- Where the tokens of an expression text stand with other lines, they are read in front of
whatever ends an expression. -/
theorem run_expression_of_takes {used used' : List Token} (fault : c.fault = none)
    (takes : c.Takes used last) (run : (expression fuel 0).run c = .ok (e, last))
    (rest : last.rest = [])
    (eof : last.current.kind = .eof) (same : used'.map Token.piece = used.map Token.piece)
    (takes' : x.Takes used' x') (stop : x'.current.EndsExpression) :
    (expression fuel 0).run x = .ok (e, x') := by
  -- the same tokens with the end of the expression text behind them
  obtain ⟨y, here⟩ := Cursor.exists_takes used' last
  have pieces : y.tokens.map Token.piece = c.tokens.map Token.piece := by
    rw [here.1, takes.1, List.map_append, List.map_append, same]
  have fault' : y.fault = none := here.2.symm.trans (takes.2.trans fault)
  obtain ⟨last', run', left⟩ := run_expression_of_pieces fault fault' pieces run
  have ended : y.Ended := by
    refine fun _ => ⟨last.current, ?_, eof⟩
    rw [here.1, Cursor.tokens, rest]
    exact List.getLast?_concat
  obtain ⟨used'', -, takes'', again⟩ := (repeatsExpressions fuel).expression 0 y e last' ended run'
  have all : used'' = used' := by
    refine (List.append_inj' (takes''.1.symm.trans here.1) ?_).1
    rw [← List.length_map Token.piece, left, List.length_map]
  subst all
  exact again x x' takes' (.inr stop)

/-- The pieces of an expression text are read as the expression, with nesting enough for them. -/
theorem reads_expression_of_run {used : List Token} (ended : c.Ended) (fault : c.fault = none)
    (takes : c.Takes used last) (run : (expression fuel 0).run c = .ok (e, last))
    (rest : last.rest = []) (eof : last.current.kind = .eof) {fuel' : Nat} {tail : List Piece}
    (fits : 8 * used.length + 3 ≤ fuel') (stop : (front tail).EndsExpression) :
    Reads (expression fuel' 0) (used.map Token.piece ++ tail) tail (· = e) := by
  intro x spells
  obtain ⟨used', left, tokens, same, others⟩ :=
    List.map_eq_append_iff.mp (spells.2.trans (List.append_assoc _ _ _))
  have some : left ≠ [] := by
    rintro rfl
    simp at others
  obtain ⟨x', here, clear⟩ := Cursor.exists_over left none some
  have spells' : x'.Spells tail := ⟨clear, (congrArg _ here).trans others⟩
  obtain ⟨line, current⟩ := Reads.current_of_spells spells'
  have length : c.tokens.length = used.length + 1 := by
    rw [takes.1, Cursor.tokens, rest, List.length_append]
    rfl
  have run' : (expression fuel' 0).run c = .ok (e, last) :=
    run_expression_of_fits ended fault run (by omega)
  refine ⟨e, x', ?_, rfl, spells'⟩
  refine run_expression_of_takes fault takes run' rest eof same ⟨?_, clear.trans spells.1.symm⟩ ?_
  · exact tokens.trans (congrArg (used' ++ ·) here.symm)
  · rw [current]
    exact stop

end Parser

/-- The pieces of an expression text are read as the expression. -/
theorem IsExpression.exists_pieces (h : IsExpression dollar text e) :
    ∃ ps, (lex dollar text).tokens.map Token.piece = ps ++ [eof] ∧
      (∀ p ∈ ps.getLast?, p.1 ≠ .newline) ∧ ReadsAs ps e := by
  obtain ⟨fuel, c, last, hc, run, stop⟩ := h
  obtain ⟨ended, tokens, fault⟩ := ended_of_cursor hc
  obtain ⟨used, inLine, takes, -⟩ :=
    (Parser.repeatsExpressions fuel).expression 0 c e last ended run
  have whole := tokens.symm.trans takes.1
  obtain ⟨rest, clear⟩ := rest_of_eof whole stop
  have ends : last.tokens.map Token.piece = [eof] := by
    obtain ⟨before, finished, -⟩ := exists_tokens clear
    rw [← lex, whole, Cursor.tokens, rest] at finished
    rw [Cursor.tokens, rest, List.append_inj_right' finished rfl]
    rfl
  refine ⟨used.map Token.piece, by rw [whole, List.map_append, ends], ?_, ?_⟩
  · intro p hp
    obtain ⟨t, final, other⟩ := inLine
    rw [List.getLast?_map, Option.mem_def.mp final] at hp
    obtain rfl := Option.some.inj hp
    exact other
  · have starts := Parser.startsArgument_of_expression run
    have genuine : c.current.Genuine dollar :=
      lexesAs_of_mem (by rw [← lex, ← tokens]; exact List.mem_cons_self)
    have first : front (used.map Token.piece) = c.current.piece := by
      obtain ⟨t, more, rfl⟩ := List.exists_cons_of_ne_nil inLine.ne_nil
      rw [takes.current_eq]
      rfl
    refine ⟨first ▸ Token.opens_of_startsArgument genuine starts, first ▸ starts, ?_⟩
    intro fuel' tail fits ends
    rw [List.length_map] at fits
    exact Parser.reads_expression_of_run ended (fault.trans clear) takes run rest stop fits ends

/-- On another line a text has the same pieces. -/
theorem Lexer.pieces_tokensFrom (line line' : Nat) (cs : List Char) :
    (tokensFrom dollar line cs).tokens.map Token.piece =
      (tokensFrom dollar line' cs).tokens.map Token.piece := by
  have first (line : Nat) : (tokensFrom dollar line cs).tokens.map Token.piece =
      (tokensFrom dollar 0 cs).tokens.map Token.piece := by
    rw [← Nat.zero_add line, tokensFrom_add, Lexed.mapLines, List.map_map]
    rfl
  rw [first, first line']

/-- In front of a separator an expression text is read as its pieces. -/
theorem IsExpression.writes (h : IsExpression dollar text e) :
    WritesPieces dollar text fun ps => ReadsAs ps e ∧
      (lex dollar text).tokens.map Token.piece = ps ++ [eof] := by
  obtain ⟨ps, pieces, inLine, reads⟩ := h.exists_pieces
  refine ⟨ps, ⟨reads, pieces⟩, fun s qs hs hq line => ?_⟩
  refine tokensFrom_append_setOff hs hq line text.toList ps ?_ inLine
  rw [← pieces, lex, pieces_tokensFrom line 1]

end ScriptLang
