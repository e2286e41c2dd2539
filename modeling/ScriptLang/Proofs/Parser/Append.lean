import ScriptLang.Proofs.Parser.Lines
import ScriptLang.Proofs.Parser.WellFormed
import ScriptLang.Proofs.Token.Append

/-!
# One program behind another

A text that ends in a line feed is read to its end whatever is put behind it: the line
break after its last statement settles that statement. Where its block would end with the
text, the block of the other text goes on, on later lines. So the programs of two texts,
one behind the other, are the program of the whole.
-/

namespace ScriptLang

open Lexer
open Token (pastNewline)

/-! ## Later lines -/

/-- On later lines a text has the same tokens on later lines. -/
theorem Lexer.tokensFrom_add {dollar : Bool} (line k : Nat) (cs : List Char) :
    tokensFrom dollar (line + k) cs = (tokensFrom dollar line cs).mapLines (· + k) := by
  fun_induction tokensFrom dollar line cs with
  | case1 line cs hd =>
      rw [tokensFrom_nil hd]
      rfl
  | case2 line cs c rest hd cause more hl =>
      rw [tokensFrom_fault hd hl]
      rfl
  | case3 line cs c rest hd kind more hl slice after ih =>
      rw [tokensFrom_item hd hl, Nat.add_right_comm, ih]
      rfl

theorem Token.pastNewline_map_mapLine (f : Nat → Nat) (ts : List Token) :
    pastNewline (ts.map (Token.mapLine f)) = (pastNewline ts).map (Token.mapLine f) := by
  cases ts with
  | nil => rfl
  | cons t ts =>
      rw [List.map_cons, pastNewline, pastNewline, Token.mapLine_kind]
      split <;> rfl

theorem Token.pastNewline_cons_append (t : Token) (front ts : List Token) :
    pastNewline (t :: (front ++ ts)) = pastNewline (t :: front) ++ ts := by
  rw [pastNewline, pastNewline]
  split <;> rfl

/-! ## Cursors -/

/-- A cursor over given tokens. -/
theorem Cursor.exists_over (ts : List Token) (fault : Option Diagnostic) (h : ts ≠ []) :
    ∃ c : Cursor, c.tokens = ts ∧ c.fault = fault := by
  obtain ⟨t, rest, rfl⟩ := List.exists_cons_of_ne_nil h
  exact ⟨⟨t, rest, fault⟩, rfl, rfl⟩

theorem Cursor.eq_of_tokens {c c' : Cursor} (tokens : c.tokens = c'.tokens)
    (fault : c.fault = c'.fault) : c = c' := by
  obtain ⟨current, rest, _⟩ := c
  obtain ⟨rfl, rfl⟩ := List.cons.inj tokens
  obtain rfl := fault
  rfl

theorem Cursor.mapLines_tokens (f : Nat → Nat) (c : Cursor) :
    (c.mapLines f).tokens = c.tokens.map (Token.mapLine f) := rfl

namespace Parser

variable {α : Type} {f : Nat → Nat} {g : α → α} {q : Nat → Parser α} {fuel : Nat}
  {c c' x x' y : Cursor} {body more : List Stmt}

/-- What is granted follows the lines. -/
theorem Grants.mapLines {r : Except Stop (α × Cursor)} (follows : ∀ i, Follows f g (q i) (q i))
    (h : Grants q c r) : Grants q (c.mapLines f) (renumbered f g r) := by
  intro i
  rw [follows i c]
  rcases h i with granted | deep
  · exact .inl (by rw [granted])
  · exact .inr (by rw [deep]; rfl)

/-! ## Line breaks -/

theorem run_advance (tokens : c.tokens = c.current :: c'.tokens) (fault : c'.fault = c.fault) :
    advance.run c = .ok (c.current, c') := by
  obtain ⟨current, rest, _⟩ := c
  obtain ⟨next, later, _⟩ := c'
  obtain rfl := (List.cons.inj tokens).2
  obtain rfl := fault
  rfl

theorem expectNewline_eq_ok : expectNewline.run c = .ok ((), c') ↔
    c.current.kind = .newline ∧ ∃ t, advance.run c = .ok (t, c') := by
  by_cases newline : c.current.kind = .newline
  · have run : expectNewline.run c = (advance >>= fun _ => pure () : Parser Unit).run c := by
      simp [expectNewline, atNewline, peek, newline]
    rw [run, run_bind_eq_ok, and_iff_right newline]
    refine exists_congr fun t => ⟨?_, fun taken => ⟨c', taken, rfl⟩⟩
    rintro ⟨_, taken, ⟨⟩⟩
    exact taken
  · have run : expectNewline.run c = (refuse .newline : Parser Unit).run c := by
      simp [expectNewline, atNewline, peek, newline]
    rw [run]
    refine ⟨?_, fun h => absurd h.1 newline⟩
    rintro ⟨⟩

theorem skipNewline_eq_ok : skipNewline.run c = .ok ((), c') ↔
    if c.current.kind = .newline then ∃ t, advance.run c = .ok (t, c') else c' = c := by
  split
  next newline =>
    have run : skipNewline.run c = (advance >>= fun _ => pure () : Parser Unit).run c := by
      simp [skipNewline, atNewline, peek, newline]
    rw [run, run_bind_eq_ok]
    refine exists_congr fun t => ⟨?_, fun taken => ⟨c', taken, rfl⟩⟩
    rintro ⟨_, taken, ⟨⟩⟩
    exact taken
  next newline =>
    have run : skipNewline.run c = (pure () : Parser Unit).run c := by
      simp [skipNewline, atNewline, peek, newline]
    rw [run]
    constructor
    · rintro ⟨⟩
      rfl
    · rintro rfl
      rfl

/-- A line break that is skipped is left out of the tokens. -/
theorem tokens_of_skipNewline (ended : c.Ended) (h : skipNewline.run c = .ok ((), c')) :
    c'.tokens = pastNewline c.tokens ∧ c'.fault = c.fault := by
  rw [skipNewline_eq_ok] at h
  split at h
  next newline =>
    obtain ⟨t, taken⟩ := h
    obtain ⟨tokens, fault⟩ := tokens_of_advance ended (by simp [newline]) taken
    refine ⟨?_, fault⟩
    rw [tokens]
    exact (if_pos newline).symm
  next other =>
    subst h
    exact ⟨(if_neg other).symm, rfl⟩

theorem run_skipNewline (tokens : c'.tokens = pastNewline c.tokens) (fault : c'.fault = c.fault) :
    skipNewline.run c = .ok ((), c') := by
  rw [skipNewline_eq_ok]
  split
  next newline =>
    have rest : c'.tokens = c.rest := tokens.trans (if_pos newline)
    exact ⟨c.current, run_advance (by rw [rest]; rfl) fault⟩
  next other => exact Cursor.eq_of_tokens (tokens.trans (if_neg other)) fault

/-! ## Blocks -/

/-- The token ends a block. -/
def endsBlock (t : Token) : Bool := t.kind = .eof || blockEnds.any t.is

theorem run_atBlockEnd (c : Cursor) : atBlockEnd.run c = .ok (endsBlock c.current, c) := rfl

/-- A block is over, or it is a statement, a line break and a block. -/
theorem block_cases {place : Place} (h : (block (fuel + 1) place).run c = .ok (body, c')) :
    body = [] ∧ c' = c ∨ ∃ s rest c₁ c₂, body = s :: rest ∧ endsBlock c.current = false ∧
      (statement fuel place).run c = .ok (s, c₁) ∧ expectNewline.run c₁ = .ok ((), c₂) ∧
        (block fuel place).run c₂ = .ok (rest, c') := by
  rw [block] at h
  obtain ⟨ends, c₀, first, h⟩ := run_bind_eq_ok.mp h
  cases (run_atBlockEnd c).symm.trans first
  split at h
  next =>
    cases h
    exact .inl ⟨rfl, rfl⟩
  next goesOn =>
    obtain ⟨s, c₁, read, h⟩ := run_bind_eq_ok.mp h
    obtain ⟨_, c₂, broken, h⟩ := run_bind_eq_ok.mp h
    obtain ⟨rest, c₃, later, h⟩ := run_bind_eq_ok.mp h
    cases h
    exact .inr ⟨s, rest, c₁, c₂, rfl, Bool.eq_false_of_not_eq_true goesOn, read, broken, later⟩

theorem Grants.block_cons {place : Place} {s : Stmt} {x₁ x₂ : Cursor}
    (goesOn : endsBlock x.current = false) (read : Grants (statement · place) x (.ok (s, x₁)))
    (broken : expectNewline.run x₁ = .ok ((), x₂))
    (later : Grants (block · place) x₂ (.ok (body, y))) :
    Grants (block · place) x (.ok (s :: body, y)) := by
  refine .of_succ rfl ?_
  have first : Grants (fun _ => atBlockEnd) x (.ok (false, x)) :=
    fun _ => .inl (by rw [run_atBlockEnd, goesOn])
  have lineBreak : Grants (fun _ => expectNewline) x₁ (.ok ((), x₂)) := fun _ => .inl broken
  simp only [block]
  exact first.bind (read.bind (lineBreak.bind (later.bind fun _ => .inl rfl)))

/-- A statement and the line break behind it stand as they are, whatever follows. -/
theorem line_settled {place : Place} {s : Stmt} {c₁ c₂ : Cursor} (ended : c.Ended)
    (fits : 8 * c.tokens.length ≤ fuel + 4) (read : (statement fuel place).run c = .ok (s, c₁))
    (broken : expectNewline.run c₁ = .ok ((), c₂)) :
    ∃ used, c.tokens = used ++ c₂.tokens ∧ c₂.fault = c.fault ∧
      c₂.tokens.length < c.tokens.length ∧
      ∀ x x₂, x.tokens = used ++ x₂.tokens → x.fault = x₂.fault → x.current = c.current ∧
        ∃ x₁, Grants (statement · place) x (.ok (s, x₁)) ∧
          expectNewline.run x₁ = .ok ((), x₂) := by
  have settled := (promptStatements fuel).statement _ place fits c ended le_rfl
  rw [read] at settled
  obtain ⟨used, tokens₁, fault₁, -, granted⟩ := settled
  obtain ⟨newline, t, taken⟩ := expectNewline_eq_ok.mp broken
  obtain ⟨tokens₂, fault₂⟩ :=
    tokens_of_advance (ended.of_append tokens₁ fault₁) (by simp [newline]) taken
  have whole : c.tokens = used ++ c₁.current :: c₂.tokens := by rw [tokens₁, tokens₂]
  refine ⟨used ++ [c₁.current], by rw [whole]; simp, fault₂.trans fault₁, ?_, ?_⟩
  · rw [whole, List.length_append, List.length_cons]
    omega
  · intro x x₂ tokens fault
    have xwhole : x.tokens = used ++ c₁.current :: x₂.tokens := by rw [tokens]; simp
    exact ⟨Cursor.current_eq whole xwhole, _, granted x x₂.tokens xwhole,
      expectNewline_eq_ok.mpr ⟨newline, _, run_advance rfl fault.symm⟩⟩

/-- Where a block ends, a block that begins there goes on with it, and what stands before
is read as it was. -/
theorem block_append {place : Place} (h : (block fuel place).run c = .ok (body, c'))
    (ended : c.Ended) (fits : 8 * c.tokens.length ≤ fuel + 3) :
    ∃ used, c.tokens = used ++ c'.tokens ∧ ∀ x x' more y, x.tokens = used ++ x'.tokens →
      x.fault = x'.fault → Grants (block · place) x' (.ok (more, y)) →
        Grants (block · place) x (.ok (body ++ more, y)) := by
  -- a line takes tokens, so what is left of the block fits in one level of nesting less
  induction fuel generalizing c body with
  | zero => cases h
  | succ fuel ih =>
      obtain ⟨rfl, rfl⟩ | ⟨s, rest, c₁, c₂, rfl, goesOn, read, broken, later⟩ := block_cases h
      · refine ⟨[], rfl, fun x x' more y tokens fault further => ?_⟩
        rwa [Cursor.eq_of_tokens tokens fault]
      · obtain ⟨line, tokens₁, fault₁, less, again⟩ := line_settled ended fits read broken
        obtain ⟨used, tokens₂, goOn⟩ := ih later (ended.of_append tokens₁ fault₁) (by omega)
        refine ⟨line ++ used, by rw [tokens₁, tokens₂, List.append_assoc], ?_⟩
        intro x x' more y tokens fault further
        obtain ⟨x₂, tokens', fault'⟩ :=
          Cursor.exists_over (used ++ x'.tokens) x.fault (by simp [Cursor.tokens])
        rw [List.append_assoc, ← tokens'] at tokens
        obtain ⟨same, x₁, read', broken'⟩ := again x x₂ tokens fault'.symm
        rw [← same] at goesOn
        exact .block_cons goesOn read' broken'
          (goOn x₂ x' more y tokens' (fault'.trans fault) further)

/-- How a program is read: behind a line break, if there is one, as a block from `first`
that goes on to the end of the text at `last`. -/
structure ReadsBlock (l : Lexed) (fuel : Nat) (body : List Stmt) (first last : Cursor) : Prop where
  tokens : first.tokens = pastNewline l.tokens
  fault : first.fault = l.fault
  ended : first.Ended
  fits : 8 * first.tokens.length ≤ fuel + 3
  run : (block fuel {}).run first = .ok (body, last)
  eof : last.current.kind = .eof
  rest : last.rest = []

variable {o : Options} {source : String}

theorem exists_readsBlock (h : parse o source = .ok body) :
    ∃ fuel first last, ReadsBlock (lex o.dollarIdentifiers source) fuel body first last := by
  obtain ⟨start, last, hc, run⟩ := exists_run_of_parse h
  obtain ⟨ended, tokens, fault⟩ := ended_of_cursor hc
  obtain ⟨first, skipped, read, eof⟩ := block_of_program run
  obtain ⟨tokens', fault'⟩ := tokens_of_skipNewline ended skipped
  have settled := Prompt.skipNewline start ended le_rfl
  rw [skipped] at settled
  obtain ⟨used, taken, -, fits, -⟩ := settled
  refine ⟨_, first, last, ?_, fault'.trans fault, ended.of_append taken fault', ?_, read, eof,
    rest_of_program hc run⟩
  · rw [tokens', tokens]
  · rw [tokens] at fits
    rw [Lexed.nesting]
    omega

/-- Where a block is granted behind the first line break, up to the end of the text, it is
the program. -/
theorem parse_of_block {first last : Cursor}
    (tokens : first.tokens = pastNewline (lex o.dollarIdentifiers source).tokens)
    (fault : first.fault = (lex o.dollarIdentifiers source).fault)
    (granted : Grants (block · {}) first (.ok (body, last))) (eof : last.current.kind = .eof) :
    parse o source = .ok body := by
  have some : (lex o.dollarIdentifiers source).tokens ≠ [] := by
    intro none
    rw [none] at tokens
    cases tokens
  obtain ⟨start, hc⟩ := cursor_of_tokens some
  obtain ⟨-, tokens', fault'⟩ := ended_of_cursor hc
  have skipped : Grants (fun _ => skipNewline) start (.ok ((), first)) := fun _ =>
    .inl (run_skipNewline (by rw [tokens, tokens']) (fault.trans fault'.symm))
  have program : Grants Parser.program start (.ok (body, last)) := by
    refine skipped.bind (granted.bind fun _ => .inl ?_)
    exact congrArg (fun p : Parser (List Stmt) => p.run last) (if_pos eof)
  rcases program (lex o.dollarIdentifiers source).nesting with run | deep
  · exact parse_of_run_ok hc run
  · have settled := program_settled hc
    rw [deep] at settled
    exact settled.elim

theorem ReadsBlock.granted {l : Lexed} {first last : Cursor}
    (h : ReadsBlock l fuel body first last) : Grants (block · {}) first (.ok (body, last)) := by
  have settled := (promptStatements fuel).block _ {} h.fits first h.ended le_rfl
  rw [h.run] at settled
  exact settled.grants

end Parser

/-- The tokens of both texts, when the first ends in a line feed. -/
theorem lex_append {dollar : Bool} {s₁ : String} (ends : s₁.toList.getLast? = some '\n')
    (h : (lex dollar s₁).fault = none) (s₂ : String) :
    ∃ t front eof, (lex dollar s₁).tokens = t :: (front ++ [eof]) ∧
      (lex dollar (s₁ ++ s₂)).tokens = t :: (front ++
        (pastNewline (lex dollar s₂).tokens).map (Token.mapLine (· + s₁.toList.count '\n'))) ∧
      (lex dollar (s₁ ++ s₂)).fault =
        (lex dollar s₂).fault.map (Diagnostic.mapLine (· + s₁.toList.count '\n')) := by
  obtain ⟨t, front, tokens, whole⟩ := tokensFrom_append ends h s₂.toList
  rw [tokensFrom_add, ← String.toList_append, Lexed.mapLines,
    Token.pastNewline_map_mapLine] at whole
  exact ⟨t, front, _, tokens, congrArg Lexed.tokens whole, congrArg Lexed.fault whole⟩

theorem parse_empty (o : Options) : parse o "" = .ok [] := by
  have tokens : lex o.dollarIdentifiers "" = ⟨[Token.endOfText 1], none⟩ := tokensFrom_nil rfl
  rw [parse, tokens]
  rfl

/-- Parsing goes along with concatenation. Behind a text that is empty or ends in a line feed,
another text is read as it is by itself, with its assertions on later lines. -/
theorem parse_append {o : Options} {s₁ s₂ : String} {p₁ p₂ : List Stmt}
    (ends : s₁ = "" ∨ s₁.toList.getLast? = some '\n')
    (h₁ : parse o s₁ = .ok p₁) (h₂ : parse o s₂ = .ok p₂) :
    parse o (s₁ ++ s₂) = .ok (p₁ ++ mapLines (· + s₁.toList.count '\n') p₂) := by
  rcases ends with rfl | ends
  · obtain rfl := Except.ok.inj (h₁.symm.trans (parse_empty o))
    have same : mapLines (· + "".toList.count '\n') p₂ = p₂ := mapLines_id p₂
    rw [same, String.empty_append, List.nil_append, h₂]
  · obtain ⟨fuel₁, c₁, last₁, read₁⟩ := Parser.exists_readsBlock h₁
    obtain ⟨fuel₂, c₂, last₂, read₂⟩ := Parser.exists_readsBlock h₂
    have none : (lex o.dollarIdentifiers s₁).fault = none := (first_error_wins o s₁).1 p₁ h₁
    obtain ⟨t, front, eof, tokens₁, tokens, fault⟩ := lex_append ends none s₂
    let f := (· + s₁.toList.count '\n')
    have later := read₂.granted.mapLines fun i => (Parser.followsStatements f i).block {}
    obtain ⟨used, taken, goesOn⟩ := Parser.block_append read₁.run read₁.ended read₁.fits
    have before : used = pastNewline (t :: front) := by
      rw [read₁.tokens, tokens₁, Token.pastNewline_cons_append, Cursor.tokens, read₁.rest] at taken
      exact (List.append_inj_left' taken rfl).symm
    obtain ⟨x, first, fault'⟩ := Cursor.exists_over (used ++ (c₂.mapLines f).tokens)
      (c₂.mapLines f).fault (by simp [Cursor.tokens])
    refine Parser.parse_of_block ?_ ?_ (goesOn x _ _ _ first fault' later) read₂.eof
    · rw [first, before, tokens, Token.pastNewline_cons_append, Cursor.mapLines_tokens,
        read₂.tokens]
    · rw [fault', fault, ← read₂.fault]
      rfl

/-- The comments and blank lines on both sides of the seam are one line break, and the nested
assertion stands three lines further down. -/
theorem parse_append_comments :
    (("assert a\n\n # one\n" = "" ∨ "assert a\n\n # one\n".toList.getLast? = some '\n') ∧
      parse {} "assert a\n\n # one\n" = .ok [.assert (.ident "a") 1] ∧
      parse {} "\n # two\nif b\n assert c\nend\n" =
        .ok [.cond (.ident "b") [.assert (.ident "c") 4] .none]) ∧
    parse {} ("assert a\n\n # one\n" ++ "\n # two\nif b\n assert c\nend\n") =
      .ok ([.assert (.ident "a") 1] ++ mapLines (· + "assert a\n\n # one\n".toList.count '\n')
        [.cond (.ident "b") [.assert (.ident "c") 4] .none]) := by
  refine (and_iff_left_of_imp fun h => parse_append h.1 h.2.1 h.2.2).mpr ⟨.inr ?_, ?_, ?_⟩
  all_goals cbv

-- a comment that no line feed ends takes in what is put behind it
example : parse {} "a\n#" = .ok [.expr (.ident "a")] ∧
    parse {} "b\n" = .ok [.expr (.ident "b")] ∧
    parse {} ("a\n#" ++ "b\n") = .ok [.expr (.ident "a")] := by
  cbv

end ScriptLang
