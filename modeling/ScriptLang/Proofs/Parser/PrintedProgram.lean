import ScriptLang.Proofs.Parser.PrintedExpression

/-!
# Reading programs that were written down

A statement is read back up to the line break behind it, and a block up to the
word or mark that ends it. No statement begins with one of these, so a block is
never cut short, and none of the places that a statement is refused at is where a
well-formed program has it.

Nothing is lost but the lines of assertions: what is read has lines of its own.
-/

namespace ScriptLang

open Piece

/-- A block ends in front of the piece. -/
def Piece.endsBlock (p : Piece) : Bool := p.1 = .eof || Parser.blockEnds.any p.is

theorem Piece.Opens.endsBlock {p : Piece} (h : p.Opens) : p.endsBlock = false := by
  have closes : ∀ text ∈ Parser.blockEnds, text ∈ closers := by decide
  have other : ∀ text ∈ Parser.blockEnds, p.is text = false :=
    fun text ht => h.not_closer text (closes text ht)
  simpa [Piece.endsBlock, h.not_eof] using other

/-- No statement begins with what ends a block. -/
theorem Stmt.not_endsBlock {dollar : Bool} {place : Parser.Place} {s : Stmt}
    (h : s.WellFormed dollar place) (tail : List Piece) :
    (front (s.pieces ++ tail)).endsBlock = false := by
  cases s with
  | expr e => exact (Expr.opens h tail).endsBlock
  | _ => rfl

theorem Alternative.endsBlock (a : Alternative) (tail : List Piece) :
    (front (a.pieces ++ tail)).endsBlock = true := by
  cases a <;> rfl

theorem endsBlock_piecesOfArms (arms : List Arm) (tail : List Piece) :
    (front (piecesOfArms arms ++ tail)).endsBlock = true := by
  match arms with
  | [] | .mk [] _ :: _ | .mk (_ :: _) _ :: _ => rfl

namespace Parser

variable {β : Type} {R : β → Prop} {dollar : Bool} {fuel : Nat} {place : Place}
  {before mid after tail : List Piece}

/-! ## Parts of statements -/

theorem Reads.atBlockEnd {k : Bool → Parser β}
    (h : Reads (k (front before).endsBlock) before after R) :
    Reads (atBlockEnd >>= k) before after R :=
  .bind (P := (· = (front before).endsBlock)) (.peek fun _ => .pure rfl) fun _ hb => hb ▸ h

/-- An expression up to the end of its line. -/
theorem Reads.line {e : Expr} {k : Expr → Unit → Parser β} (he : e.WellFormed dollar)
    (hf : 8 * e.pieces.length ≤ fuel) (h : Reads (k e ()) before after R) :
    Reads (expression fuel 0 >>= fun e => Parser.expectNewline >>= k e)
      (e.pieces ++ lineBreak :: before) after R := by
  refine .bind (readable he fuel 0 _ hf (by omega) (by decide : lineBreak ∈ ends)) ?_
  rintro _ rfl
  exact .expectNewline h

/-- An expression that ends the statement. -/
theorem Reads.last {e : Expr} {k : Expr → Parser β} (he : e.WellFormed dollar)
    (hf : 8 * e.pieces.length ≤ fuel) (h : Reads (k e) (lineBreak :: tail) after R) :
    Reads (expression fuel 0 >>= k) (e.pieces ++ lineBreak :: tail) after R := by
  refine .bind (readable he fuel 0 _ hf (by omega) (by decide : lineBreak ∈ ends)) ?_
  rintro _ rfl
  exact h

theorem reads_names (hc : (front tail).is "," = false) :
    ∀ (x : String) (xs : List String) (fuel : Nat), (∀ y ∈ x :: xs, IsName dollar y) →
      (piecesOfNames (x :: xs)).length ≤ fuel →
      Reads (names fuel) (piecesOfNames (x :: xs) ++ tail) tail (· = x :: xs)
  | x, [], fuel + 1, h, hf => by
      unfold names
      exact .name (h x List.mem_cons_self).2 (.eat_false hc (.pure rfl))
  | x, y :: rest, fuel + 1, h, hf => by
      unfold names
      simp only [piecesOfNames, List.cons_append, List.length_cons] at hf ⊢
      refine .name (h x List.mem_cons_self).2 (.eat_true rfl ?_)
      refine .bind (reads_names hc y rest fuel (List.forall_mem_cons.mp h).2 (by omega)) ?_
      rintro _ rfl
      exact .pure rfl

theorem reads_parameters {params : List String} (h : ∀ x ∈ params, IsName dollar x)
    (hf : (piecesOfNames params).length ≤ fuel) :
    Reads (parameters fuel) (grouped (piecesOfNames params) ++ tail) tail (· = params) := by
  unfold parameters
  simp only [grouped, List.cons_append, List.append_assoc, List.nil_append]
  refine .expect rfl ?_
  match params with
  | [] => exact .eat_true rfl (.pure rfl)
  | x :: xs =>
      have open_ : (front (piecesOfNames (x :: xs) ++ mark ")" :: tail)).is ")" = false := by
        have first : front (piecesOfNames (x :: xs) ++ mark ")" :: tail) = word x := by
          cases xs <;> rfl
        rw [first]
        exact (opens_name (h x List.mem_cons_self)).not_closer ")" (by decide)
      refine .eat_false open_ (.bind (reads_names rfl x xs fuel h hf) ?_)
      rintro _ rfl
      exact .expect rfl (.pure rfl)

theorem reads_loopHeader {header : LoopHeader} (h : ∀ x ∈ header.names, IsName dollar x) :
    Reads loopHeader (piecesOfNames header.names ++ mark ":" :: tail) tail (· = header) := by
  unfold loopHeader
  cases header with
  | single x =>
      exact .name (h x List.mem_cons_self).2 (.eat_false rfl (.expect rfl (.pure rfl)))
  | keyed key value =>
      refine .name (h key List.mem_cons_self).2 (.eat_true rfl ?_)
      exact .name (h value (by simp [LoopHeader.names])).2 (.expect rfl (.pure rfl))

/-- A statement that begins like an expression does not begin with a word of the grammar. -/
theorem reads_statement {P : Stmt → Prop} (opens : (front before).Opens)
    (reads : Reads (expressionStatement fuel) before after P) :
    Reads (statement (fuel + 1) place) before after P := by
  unfold statement
  refine .peek fun line => ?_
  split
  next => exact reads
  next hw =>
    have other : ∀ text ∈ closers, (front before).2 ≠ text := by
      intro text ht heq
      have different := opens.not_closer text ht
      simp_all [Piece.is, Piece.at]
    split
    all_goals first
      | exact reads
      | exact absurd (by assumption) (other _ (by decide))

/-- An expression up to the end of its line is a statement. -/
theorem reads_expressionStatement {e : Expr}
    (h : Reads (expression fuel 0) before (lineBreak :: tail) (· = e)) :
    Reads (expressionStatement fuel) before (lineBreak :: tail) (· = .expr e) := by
  unfold expressionStatement
  refine .bind h ?_
  rintro _ rfl
  refine .eat_false rfl (.peek fun _ => ?_)
  exact .of_false Bool.false_ne_true (.pure rfl)

/-- A statement that is an expression, however that is spelled. -/
theorem reads_expr {e : Expr} {ps : List Piece} (h : Spells dollar ps e)
    (hf : 8 * ps.length + 1 ≤ fuel) :
    Reads (statement fuel place) (ps ++ lineBreak :: tail) (lineBreak :: tail) (· = .expr e) := by
  match fuel with
  | fuel + 1 =>
      have ends : lineBreak ∈ ends := by decide
      exact reads_statement (h.opens _) (reads_expressionStatement
        (readable_of_spells h fuel 0 _ (by omega) (by omega) ends))

/-! ## Statements -/

/-- The statement is read back from its pieces, up to the lines of assertions. -/
def ReadableStmt (place : Place) (s : Stmt) : Prop :=
  ∀ fuel tail, 16 * s.pieces.length ≤ fuel →
    Reads (statement fuel place) (s.pieces ++ lineBreak :: tail) (lineBreak :: tail)
      (fun s' => s'.withoutLines = s.withoutLines)

/-- What follows a condition is read back from its pieces. -/
def ReadableAlternative (place : Place) (a : Alternative) : Prop :=
  ∀ fuel tail, 16 * a.pieces.length ≤ fuel →
    Reads (alternative fuel place) (a.pieces ++ tail) tail
      (fun a' => a'.withoutLines = a.withoutLines)

/-- Arms are read back from their pieces. -/
def ReadableArms (place : Place) (arms : List Arm) : Prop :=
  ∀ fuel tail, 16 * (piecesOfArms arms).length ≤ fuel →
    Reads (Parser.arms fuel place) (piecesOfArms arms ++ tail) tail
      (fun arms' => withoutLinesInArms arms' = withoutLinesInArms arms)

/-- A block is read back from its pieces. -/
def ReadableBlock (place : Place) (body : List Stmt) : Prop :=
  ∀ fuel tail, 16 * (piecesOfBlock body).length + 16 ≤ fuel → (front tail).endsBlock = true →
    Reads (block fuel place) (piecesOfBlock body ++ tail) tail (Alike · body)

/-- A block with the `end` behind it. -/
theorem ReadableBlock.closed {body : List Stmt} (h : ReadableBlock place body)
    {k : List Stmt → Unit → Parser β} (hf : 16 * (piecesOfBlock body).length + 16 ≤ fuel)
    (hk : ∀ body', Alike body' body → Reads (k body' ()) tail after R) :
    Reads (block fuel place >>= fun body => expect "end" >>= k body)
      (piecesOfBlock body ++ word "end" :: tail) after R :=
  .bind (h fuel _ hf rfl) fun body' hb => .expect rfl (hk body' hb)

theorem ReadableBlock.loopBody {body : List Stmt}
    (h : ReadableBlock { place with inLoop := true } body)
    (hf : 16 * (piecesOfBlock body).length + 17 ≤ fuel) :
    Reads (loopBody fuel place) (piecesOfBlock body ++ word "end" :: tail) tail (Alike · body) := by
  match fuel with
  | fuel + 1 =>
      unfold Parser.loopBody
      exact h.closed (by omega) fun body' hb => .pure hb

namespace ReadableStmt

variable {test e : Expr} {body handler : List Stmt}

theorem expr (he : e.WellFormed dollar) : ReadableStmt place (.expr e) := by
  intro fuel tail hf
  have length := List.length_pos_iff.mpr (Expr.pieces_ne_nil he)
  simp only [Stmt.pieces] at hf
  refine (reads_expr (Expr.spells_pieces e he) (by omega)).imp ?_
  rintro _ rfl
  rfl

theorem cond {rest : Alternative} (ht : test.WellFormed dollar) (hb : ReadableBlock place body)
    (hr : ReadableAlternative place rest) : ReadableStmt place (.cond test body rest)
  | fuel + 1, tail, hf => by
      simp only [Stmt.pieces, List.length_append, List.length_cons] at hf
      simp only [Stmt.pieces, List.append_assoc, List.cons_append]
      unfold statement
      refine .peek fun line => .of_false (· rfl) (.advance fun _ => .line ht (by omega) ?_)
      refine .bind (hb fuel _ (by omega) (rest.endsBlock _)) fun body' hb => ?_
      refine .bind (hr fuel _ (by omega)) fun rest' hr => .pure ?_
      exact congrArg₂ (Stmt.cond test) hb hr

theorem whileLoop (ht : test.WellFormed dollar)
    (hb : ReadableBlock { place with inLoop := true } body) :
    ReadableStmt place (.whileLoop test body)
  | fuel + 1, tail, hf => by
      simp only [Stmt.pieces, List.length_append, List.length_cons] at hf
      simp only [Stmt.pieces, List.append_assoc, List.cons_append, List.nil_append]
      unfold statement
      refine .peek fun line => .of_false (· rfl) (.advance fun _ => .line ht (by omega) ?_)
      refine .bind (hb.loopBody (by omega)) fun body' hb => .pure ?_
      exact congrArg (Stmt.whileLoop test) hb

theorem doWhile (ht : test.WellFormed dollar)
    (hb : ReadableBlock { place with inLoop := true } body) :
    ReadableStmt place (.doWhile test body)
  | fuel + 1, tail, hf => by
      simp only [Stmt.pieces, List.length_append, List.length_cons] at hf
      simp only [Stmt.pieces, List.append_assoc, List.cons_append, List.nil_append]
      unfold statement
      refine .peek fun line => .of_false (· rfl) (.advance fun _ => .line ht (by omega) ?_)
      refine .bind (hb.loopBody (by omega)) fun body' hb => .pure ?_
      exact congrArg (Stmt.doWhile test) hb

theorem forEach {header : LoopHeader} (hh : ∀ x ∈ header.names, IsName dollar x)
    (he : e.WellFormed dollar) (hb : ReadableBlock { place with inLoop := true } body) :
    ReadableStmt place (.forEach header e body)
  | fuel + 1, tail, hf => by
      simp only [Stmt.pieces, List.length_append, List.length_cons] at hf
      simp only [Stmt.pieces, List.append_assoc, List.cons_append, List.nil_append]
      unfold statement
      refine .peek fun line => .of_false (· rfl) (.advance fun _ => ?_)
      refine .bind (reads_loopHeader hh) ?_
      rintro header rfl
      refine .line he (by omega) (.bind (hb.loopBody (by omega)) fun body' hb => .pure ?_)
      exact congrArg (Stmt.forEach header e) hb

theorem select {arms : List Arm} (he : e.WellFormed dollar) (ha : ReadableArms place arms) :
    ReadableStmt place (.select e arms)
  | fuel + 1, tail, hf => by
      simp only [Stmt.pieces, List.length_append, List.length_cons] at hf
      simp only [Stmt.pieces, List.append_assoc, List.cons_append]
      unfold statement
      refine .peek fun line => .of_false (· rfl) (.advance fun _ => .line he (by omega) ?_)
      refine .bind (ha fuel _ (by omega)) fun arms' ha => .pure ?_
      exact congrArg (Stmt.select e) ha

theorem func {name : String} {params : List String} (hn : IsName dollar name)
    (hp : ∀ x ∈ params, IsName dollar x) (hb : ReadableBlock ⟨true, false⟩ body) :
    ReadableStmt place (.func name params body)
  | fuel + 1, tail, hf => by
      simp only [Stmt.pieces, grouped, List.length_append, List.length_cons] at hf
      simp only [Stmt.pieces, List.append_assoc, List.cons_append, List.nil_append]
      unfold statement
      refine .peek fun line => .of_false (· rfl) (.advance fun _ => .name hn.2 ?_)
      refine .bind (reads_parameters hp (by omega)) ?_
      rintro params rfl
      refine .expectNewline (hb.closed (by omega) fun body' hb => .pure ?_)
      exact congrArg (Stmt.func name params) hb

theorem ret (hp : place.inFunction = true) (he : e.WellFormed dollar) :
    ReadableStmt place (.ret e)
  | fuel + 1, tail, hf => by
      simp only [Stmt.pieces, List.length_cons] at hf
      have first := (Expr.opens he (lineBreak :: tail)).not_newline
      unfold statement
      refine .peek fun line => .of_false (· rfl) (.of_true hp (.advance fun _ => ?_))
      exact .atNewline (.of_false (by simpa using first) (.last he (by omega) (.pure rfl)))

theorem outer {x : String} {xs : List String} (h : ∀ y ∈ x :: xs, IsName dollar y) :
    ReadableStmt place (.outer (x :: xs))
  | fuel + 1, tail, hf => by
      simp only [Stmt.pieces, List.length_cons] at hf
      unfold statement
      refine .peek fun line => .of_false (· rfl) (.advance fun _ => ?_)
      refine .bind (reads_names rfl x xs fuel h (by omega)) ?_
      rintro _ rfl
      exact .pure rfl

theorem «break» (hp : place.inLoop = true) : ReadableStmt place .break
  | fuel + 1, tail, _ => by
      unfold statement
      exact .peek fun line => .of_false (· rfl) (.of_true hp (.advance fun _ => .pure rfl))

theorem «continue» (hp : place.inLoop = true) : ReadableStmt place .continue
  | fuel + 1, tail, _ => by
      unfold statement
      exact .peek fun line => .of_false (· rfl) (.of_true hp (.advance fun _ => .pure rfl))

theorem assert {line : Nat} (ht : test.WellFormed dollar) : ReadableStmt place (.assert test line)
  | fuel + 1, tail, hf => by
      simp only [Stmt.pieces, List.length_cons] at hf
      unfold statement
      refine .peek fun line => .of_false (· rfl) (.advance fun _ => ?_)
      exact .last ht (by omega) (.pure rfl)

theorem throw (he : e.WellFormed dollar) : ReadableStmt place (.throw e)
  | fuel + 1, tail, hf => by
      simp only [Stmt.pieces, List.length_cons] at hf
      unfold statement
      refine .peek fun line => .of_false (· rfl) (.advance fun _ => ?_)
      exact .last he (by omega) (.pure rfl)

theorem attempt {name : String} (hb : ReadableBlock place body) (hn : IsName dollar name)
    (hh : ReadableBlock place handler) : ReadableStmt place (.attempt body name handler)
  | fuel + 1, tail, hf => by
      simp only [Stmt.pieces, List.length_append, List.length_cons] at hf
      simp only [Stmt.pieces, List.append_assoc, List.cons_append, List.nil_append]
      unfold statement
      refine .peek fun line => .of_false (· rfl) (.advance fun _ => .expectNewline ?_)
      refine .bind (hb fuel _ (by omega) rfl) fun body' hb => .expect rfl (.name hn.2 ?_)
      refine .expectNewline (hh.closed (by omega) fun handler' hh => .pure ?_)
      exact congrArg₂ (fun b => Stmt.attempt b name) hb hh

end ReadableStmt

namespace ReadableAlternative

variable {test : Expr} {body : List Stmt}

theorem none : ReadableAlternative place .none
  | fuel + 1, tail, _ => by
      unfold alternative
      exact .eat_false rfl (.eat_false rfl (.expect rfl (.pure rfl)))

theorem otherwise (hb : ReadableBlock place body) : ReadableAlternative place (.otherwise body)
  | fuel + 1, tail, hf => by
      simp only [Alternative.pieces, List.length_append, List.length_cons] at hf
      simp only [Alternative.pieces, List.append_assoc, List.cons_append, List.nil_append]
      unfold alternative
      refine .eat_false rfl (.eat_true rfl (.expectNewline ?_))
      refine hb.closed (by omega) fun body' hb => .pure ?_
      exact congrArg Alternative.otherwise hb

theorem elif {rest : Alternative} (ht : test.WellFormed dollar) (hb : ReadableBlock place body)
    (hr : ReadableAlternative place rest) : ReadableAlternative place (.elif test body rest)
  | fuel + 1, tail, hf => by
      simp only [Alternative.pieces, List.length_append, List.length_cons] at hf
      simp only [Alternative.pieces, List.append_assoc, List.cons_append]
      unfold alternative
      refine .eat_true rfl (.line ht (by omega) ?_)
      refine .bind (hb fuel _ (by omega) (rest.endsBlock _)) fun body' hb => ?_
      refine .bind (hr fuel _ (by omega)) fun rest' hr => .pure ?_
      exact congrArg₂ (Alternative.elif test) hb hr

end ReadableAlternative

namespace ReadableArms

variable {body : List Stmt}

theorem nil : ReadableArms place []
  | fuel + 1, tail, _ => by
      unfold Parser.arms
      exact .eat_false rfl (.eat_false rfl (.expect rfl (.pure rfl)))

/-- An arm without patterns, which is the last one. -/
theorem otherwise (hb : ReadableBlock place body) : ReadableArms place [.mk [] body]
  | fuel + 1, tail, hf => by
      simp only [piecesOfArms, List.length_append, List.length_cons] at hf
      simp only [piecesOfArms, List.append_assoc, List.cons_append, List.nil_append]
      unfold Parser.arms
      refine .eat_false rfl (.eat_true rfl (.expectNewline ?_))
      refine hb.closed (by omega) fun body' hb => .pure ?_
      exact congrArg (fun b => [Arm.mk [] b]) hb

theorem cons {e : Expr} {patterns : List Expr} {rest : List Arm}
    (hp : WellFormedExprs dollar (e :: patterns)) (hb : ReadableBlock place body)
    (hr : ReadableArms place rest) : ReadableArms place (.mk (e :: patterns) body :: rest)
  | fuel + 1, tail, hf => by
      simp only [piecesOfArms, List.length_append, List.length_cons] at hf
      simp only [piecesOfArms, List.append_assoc, List.cons_append]
      unfold Parser.arms
      refine .eat_true rfl ?_
      refine .bind (reads_arguments e patterns fuel hp (by omega)) ?_
      rintro _ rfl
      have ends := endsBlock_piecesOfArms rest tail
      refine .expectNewline (.bind (hb fuel _ (by omega) ends) fun body' hb => ?_)
      refine .bind (hr fuel _ (by omega)) fun rest' hr => .pure ?_
      exact congrArg₂ (fun b => List.cons (Arm.mk (e :: patterns) b)) hb hr

end ReadableArms

namespace ReadableBlock

theorem nil : ReadableBlock place []
  | fuel + 1, tail, _, ht => by
      unfold block
      exact .atBlockEnd (.of_true ht (.pure rfl))

theorem cons {s : Stmt} {rest : List Stmt} (h : s.WellFormed dollar place)
    (hs : ReadableStmt place s) (hr : ReadableBlock place rest) : ReadableBlock place (s :: rest)
  | fuel + 1, tail, hf, ht => by
      simp only [piecesOfBlock, List.length_append, List.length_cons] at hf
      simp only [piecesOfBlock, List.append_assoc, List.cons_append]
      unfold block
      refine .atBlockEnd (.of_false (Bool.eq_false_iff.mp (Stmt.not_endsBlock h _)) ?_)
      refine .bind (hs fuel _ (by omega)) fun s' hs => .expectNewline ?_
      refine .bind (hr fuel _ (by omega) ht) fun rest' hr => .pure ?_
      exact congrArg₂ List.cons hs hr

end ReadableBlock

mutual

theorem readableStmt :
    ∀ (s : Stmt) (place : Place), s.WellFormed dollar place → ReadableStmt place s
  | .expr _, _, h => .expr h
  | .cond _ body rest, place, h =>
      .cond h.1 (readableBlock body place h.2.1) (readableAlternative rest place h.2.2)
  | .whileLoop _ body, _, h => .whileLoop h.1 (readableBlock body _ h.2)
  | .doWhile _ body, _, h => .doWhile h.1 (readableBlock body _ h.2)
  | .forEach _ _ body, _, h => .forEach h.1 h.2.1 (readableBlock body _ h.2.2)
  | .select _ arms, place, h => .select h.1 (readableArms arms place h.2)
  | .func _ _ body, _, h => .func h.1 h.2.1 (readableBlock body _ h.2.2)
  | .ret _, _, h => .ret h.1 h.2
  | .outer [], _, h => absurd rfl h.1
  | .outer (_ :: _), _, h => .outer h.2
  | .break, _, h => .break h
  | .continue, _, h => .continue h
  | .assert _ _, _, h => .assert h
  | .throw _, _, h => .throw h
  | .attempt body _ handler, place, h =>
      .attempt (readableBlock body place h.1) h.2.1 (readableBlock handler place h.2.2)

theorem readableAlternative :
    ∀ (a : Alternative) (place : Place), a.WellFormed dollar place → ReadableAlternative place a
  | .none, _, _ => .none
  | .otherwise body, place, h => .otherwise (readableBlock body place h)
  | .elif _ body rest, place, h =>
      .elif h.1 (readableBlock body place h.2.1) (readableAlternative rest place h.2.2)

theorem readableArms :
    ∀ (arms : List Arm) (place : Place), WellFormedArms dollar place arms →
      ReadableArms place arms
  | [], _, _ => .nil
  | .mk [] body :: rest, place, h => by
      obtain rfl : rest = [] := h.2.2.1 rfl
      exact .otherwise (readableBlock body place h.2.1)
  | .mk (_ :: _) body :: rest, place, h =>
      .cons h.1 (readableBlock body place h.2.1) (readableArms rest place h.2.2.2)

theorem readableBlock :
    ∀ (body : List Stmt) (place : Place), WellFormedBlock dollar place body →
      ReadableBlock place body
  | [], _, _ => .nil
  | s :: rest, place, h =>
      .cons h.1 (readableStmt s place h.1) (readableBlock rest place h.2)

end

/-! ## Programs -/

theorem not_newline_piecesOfBlock {body : List Stmt} (h : WellFormedBlock dollar place body) :
    (front (piecesOfBlock body)).1 ≠ .newline := by
  match body with
  | [] => rintro ⟨⟩
  | .expr e :: rest => exact (Expr.opens h.1 _).not_newline
  | .cond .. :: _ | .whileLoop .. :: _ | .doWhile .. :: _ | .forEach .. :: _ | .select .. :: _
  | .func .. :: _ | .ret _ :: _ | .outer _ :: _ | .break :: _ | .continue :: _ | .assert .. :: _
  | .throw _ :: _ | .attempt .. :: _ => rintro ⟨⟩

theorem reads_program {body : List Stmt} (h : WellFormed dollar body)
    (hf : 16 * (piecesOfBlock body).length + 16 ≤ fuel) :
    Reads (program fuel) (piecesOfBlock body) [] (Alike · body) := by
  unfold program
  refine .skipNewline (not_newline_piecesOfBlock h) ?_
  have reads := readableBlock body {} h fuel [] hf rfl
  rw [List.append_nil] at reads
  exact .bind reads fun body' hb => .peek fun _ => .of_true rfl (.pure hb)

end Parser

/-- A text that is read as pieces is parsed as the program makes of them. -/
theorem parse_of_reads {o : Options} {source : String} {ps : List Piece} {P : List Stmt → Prop}
    (hp : (lex o.dollarIdentifiers source).tokens.map Token.piece = ps ++ [eof])
    (hf : (lex o.dollarIdentifiers source).fault = none)
    (h : ∀ fuel, 16 * ps.length + 16 ≤ fuel → Parser.Reads (Parser.program fuel) ps [] P) :
    ∃ program, parse o source = .ok program ∧ P program := by
  cases ht : (lex o.dollarIdentifiers source).tokens with
  | nil => simp [ht] at hp
  | cons t rest =>
      have length := congrArg List.length hp
      rw [List.length_map, List.length_append, List.length_singleton] at length
      have spells : Cursor.Spells ⟨t, rest, none⟩ ps := ⟨rfl, ht ▸ hp⟩
      have nesting : 16 * ps.length + 16 ≤ (lex o.dollarIdentifiers source).nesting := by
        rw [Lexed.nesting]
        omega
      obtain ⟨program, c, hr, ha, -⟩ := h _ nesting _ spells
      refine ⟨program, ?_, ha⟩
      simp [parse, Lexed.parse, Lexed.cursor, ht, hf, hr, Bind.bind, Except.bind]

/-- A well-formed program is read back from the text that it is written down as. -/
theorem parse_print (o : Options) (program : List Stmt)
    (h : WellFormed o.dollarIdentifiers program) :
    ∃ program', parse o (print program) = .ok program' ∧ Alike program' program := by
  obtain ⟨hp, hf⟩ := lex_print h
  exact parse_of_reads hp hf fun _ nesting => Parser.reads_program h nesting

/-- A function with a chain of conditions, a loop, an assertion and a call of itself. -/
def countdown : List Stmt :=
  [.func "f" ["x"]
    [.cond (.slice (.ident "x") (.number "1") .omitted)
      [.whileLoop (.ident "x") [.expr (.assign (some .sub) (.ident "x") (.number "1")), .break]]
      (.elif (.unary .not (.ident "x")) [.assert (.str "\"a\"") 7]
        (.otherwise [.ret (.call (.ident "f") [.ident "x", .list []])]))]]

theorem parse_print_countdown : WellFormed false countdown ∧
    ∃ program', parse {} (print countdown) = .ok program' ∧ Alike program' countdown := by
  have f : IsName false "f" := ⟨lexesAs_of_alone rfl (by decide), by decide⟩
  have x : IsName false "x" := ⟨lexesAs_of_alone rfl (by decide), by decide⟩
  have one : LexesAs false .number "1" := lexesAs_of_alone rfl (by decide)
  have a : LexesAs false .quote "\"a\"" := lexesAs_of_alone rfl (by decide)
  refine (and_iff_left_of_imp (parse_print {} _)).mpr ?_
  refine ⟨⟨f, by simpa using x, ?_, trivial⟩, trivial⟩
  refine ⟨⟨x, .inr one, .inl rfl⟩, ⟨⟨x, ⟨rfl, ?_, x, one⟩, rfl, trivial⟩, trivial⟩, ?_⟩
  · decide
  · exact ⟨x, ⟨a, trivial⟩, ⟨rfl, f, x, trivial, trivial⟩, trivial⟩

end ScriptLang
