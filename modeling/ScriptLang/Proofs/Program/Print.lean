import ScriptLang.Proofs.Program.WellFormed
import ScriptLang.Proofs.Token.Piece

/-!
# Writing programs down

Every program as a text that spells it: operands in parentheses, one statement a
line, `elif` for a condition that goes on and `else` for the block at its end.
Whatever stands between the words and marks is one blank.

The line that an assertion reports depends on where it is written. Programs that
differ in nothing else are `alike`.
-/

namespace ScriptLang

open Piece

/-- Pieces in parentheses. -/
def grouped (ps : List Piece) : List Piece := mark "(" :: ps ++ [mark ")"]

mutual

/-- The pieces of an expression where it needs no parentheses. -/
def Expr.pieces : Expr → List Piece
  | .ident name => [word name]
  | .number text => [(.number, text)]
  | .str text => [(.quote, text)]
  | .omitted => []
  | .unary op operand => mark op.spelling :: grouped operand.pieces
  | .binary op lhs rhs => grouped lhs.pieces ++ mark op.spelling :: grouped rhs.pieces
  | .assign op target value =>
    grouped target.pieces ++ mark (Connective.assign op).spelling :: grouped value.pieces
  | .call callee args => grouped callee.pieces ++ mark "(" :: piecesOfExprs args ++ [mark ")"]
  | .index target index => grouped target.pieces ++ mark "[" :: index.pieces ++ [mark "]"]
  | .slice target start stop =>
    grouped target.pieces ++ mark "[" :: start.pieces ++ mark ":" :: stop.pieces ++ [mark "]"]
  | .map entries => mark "\x7b" :: piecesOfEntries entries ++ [mark "\x7d"]
  | .list items => mark "[" :: piecesOfExprs items ++ [mark "]"]

/-- The pieces of expressions with commas between them. -/
def piecesOfExprs : List Expr → List Piece
  | [] => []
  | [e] => e.pieces
  | e :: rest => e.pieces ++ mark "," :: piecesOfExprs rest

/-- The pieces of the entries of a map with commas between them. -/
def piecesOfEntries : List (Expr × Expr) → List Piece
  | [] => []
  | [(key, value)] => key.pieces ++ mark ":" :: value.pieces
  | (key, value) :: rest =>
    key.pieces ++ mark ":" :: value.pieces ++ mark "," :: piecesOfEntries rest

end

/-- The pieces of names with commas between them. -/
def piecesOfNames : List String → List Piece
  | [] => []
  | [name] => [word name]
  | name :: rest => word name :: mark "," :: piecesOfNames rest

mutual

/-- The pieces of a statement, without the line break after it. -/
def Stmt.pieces : Stmt → List Piece
  | .expr e => e.pieces
  | .cond test body rest =>
    word "if" :: test.pieces ++ lineBreak :: piecesOfBlock body ++ rest.pieces
  | .whileLoop test body =>
    word "while" :: test.pieces ++ lineBreak :: piecesOfBlock body ++ [word "end"]
  | .doWhile test body =>
    word "dowhile" :: test.pieces ++ lineBreak :: piecesOfBlock body ++ [word "end"]
  | .forEach header iterable body =>
    word "for" :: piecesOfNames header.names ++ mark ":" :: iterable.pieces ++
      lineBreak :: piecesOfBlock body ++ [word "end"]
  | .select subject arms => word "case" :: subject.pieces ++ lineBreak :: piecesOfArms arms
  | .func name params body =>
    word "fn" :: word name :: grouped (piecesOfNames params) ++
      lineBreak :: piecesOfBlock body ++ [word "end"]
  | .ret value => word "return" :: value.pieces
  | .outer names => word "outer" :: piecesOfNames names
  | .break => [word "break"]
  | .continue => [word "continue"]
  | .assert test _ => word "assert" :: test.pieces
  | .throw value => word "throw" :: value.pieces
  | .attempt body name handler =>
    word "try" :: lineBreak :: piecesOfBlock body ++ word "catch" :: word name ::
      lineBreak :: piecesOfBlock handler ++ [word "end"]

/-- The pieces of what follows the body of a condition, up to its `end`. -/
def Alternative.pieces : Alternative → List Piece
  | .none => [word "end"]
  | .otherwise body => word "else" :: lineBreak :: piecesOfBlock body ++ [word "end"]
  | .elif test body rest =>
    word "elif" :: test.pieces ++ lineBreak :: piecesOfBlock body ++ rest.pieces

/-- The pieces of the arms of a selection, up to its `end`. -/
def piecesOfArms : List Arm → List Piece
  | [] => [word "end"]
  | .mk [] body :: _ => word "else" :: lineBreak :: piecesOfBlock body ++ [word "end"]
  | .mk patterns body :: rest =>
    mark "|" :: piecesOfExprs patterns ++ lineBreak :: piecesOfBlock body ++ piecesOfArms rest

/-- The pieces of statements, with a line break after each. -/
def piecesOfBlock : List Stmt → List Piece
  | [] => []
  | s :: rest => s.pieces ++ lineBreak :: piecesOfBlock rest

end

/-- The text of a program. -/
def print (program : List Stmt) : String := String.ofList (spelled (piecesOfBlock program))

/-! ## Lines of assertions -/

mutual

/-- The statement without the lines of its assertions. -/
def Stmt.withoutLines : Stmt → Stmt
  | .expr e => .expr e
  | .cond test body rest => .cond test (withoutLines body) rest.withoutLines
  | .whileLoop test body => .whileLoop test (withoutLines body)
  | .doWhile test body => .doWhile test (withoutLines body)
  | .forEach header iterable body => .forEach header iterable (withoutLines body)
  | .select subject arms => .select subject (withoutLinesInArms arms)
  | .func name params body => .func name params (withoutLines body)
  | .ret value => .ret value
  | .outer names => .outer names
  | .break => .break
  | .continue => .continue
  | .assert test _ => .assert test 0
  | .throw value => .throw value
  | .attempt body name handler => .attempt (withoutLines body) name (withoutLines handler)

/-- What follows a condition, without the lines of assertions. -/
def Alternative.withoutLines : Alternative → Alternative
  | .none => .none
  | .otherwise body => .otherwise (withoutLines body)
  | .elif test body rest => .elif test (withoutLines body) rest.withoutLines

/-- Arms without the lines of assertions. -/
def withoutLinesInArms : List Arm → List Arm
  | [] => []
  | .mk patterns body :: rest => .mk patterns (withoutLines body) :: withoutLinesInArms rest

/-- Statements without the lines of assertions. -/
def withoutLines : List Stmt → List Stmt
  | [] => []
  | s :: rest => s.withoutLines :: withoutLines rest

end

/-- The programs differ at most in the lines of assertions. -/
def Alike (a b : List Stmt) : Prop := withoutLines a = withoutLines b

/-! ## Legible programs -/

variable {dollar : Bool}

theorem lexes_name {x : String} (h : IsName dollar x) : (word x).Lexes dollar :=
  lexes_of_lexesAs rfl h.1

theorem spelling_mem_marks (c : Connective) (h : c ∈ Connective.all) : c.spelling ∈ marks :=
  List.mem_append_right _ (List.mem_map_of_mem h)

theorem unary_spelling_mem_marks (op : UnaryOp) : op.spelling ∈ marks := by
  cases op <;> decide

theorem binary_mem_all (op : BinaryOp) : Connective.binary op ∈ Connective.all := by
  cases op <;> decide

theorem assign_mem_all {op : Option BinaryOp} (h : ∀ b ∈ op, BinaryOp.updates b = true) :
    Connective.assign op ∈ Connective.all := by
  cases op with
  | none => decide
  | some b =>
      have updates := h b rfl
      revert updates
      cases b <;> decide

theorem lexes_grouped {ps : List Piece} (h : ∀ p ∈ ps, p.Lexes dollar) :
    ∀ p ∈ grouped ps, p.Lexes dollar := by
  simp only [grouped, List.forall_mem_append, List.forall_mem_cons]
  exact ⟨⟨lexes_mark dollar (by decide), h⟩, lexes_mark dollar (by decide), by simp⟩

mutual

theorem Expr.lexes_pieces :
    ∀ e : Expr, e.WellFormed dollar → ∀ p ∈ e.pieces, p.Lexes dollar
  | .ident name, h => by
      simpa [Expr.pieces] using lexes_name h
  | .number text, h => by
      simpa [Expr.pieces] using lexes_of_lexesAs rfl h
  | .str text, h => by
      simpa [Expr.pieces] using lexes_of_lexesAs rfl h
  | .unary op operand, h => by
      simp only [Expr.pieces, List.forall_mem_cons]
      exact ⟨lexes_mark dollar (unary_spelling_mem_marks op),
        lexes_grouped (Expr.lexes_pieces operand h)⟩
  | .binary op lhs rhs, h => by
      simp only [Expr.pieces, List.forall_mem_append, List.forall_mem_cons]
      exact ⟨lexes_grouped (Expr.lexes_pieces lhs h.1),
        lexes_mark dollar (spelling_mem_marks (.binary op) (binary_mem_all op)),
        lexes_grouped (Expr.lexes_pieces rhs h.2)⟩
  | .assign op target value, h => by
      simp only [Expr.pieces, List.forall_mem_append, List.forall_mem_cons]
      exact ⟨lexes_grouped (Expr.lexes_pieces target h.2.2.1),
        lexes_mark dollar (spelling_mem_marks (.assign op) (assign_mem_all h.2.1)),
        lexes_grouped (Expr.lexes_pieces value h.2.2.2)⟩
  | .call callee args, h => by
      simp only [Expr.pieces, List.forall_mem_append, List.forall_mem_cons]
      exact ⟨⟨lexes_grouped (Expr.lexes_pieces callee h.1), lexes_mark dollar (by decide),
        lexes_piecesOfExprs args h.2⟩, lexes_mark dollar (by decide), by simp⟩
  | .index target key, h => by
      simp only [Expr.pieces, List.forall_mem_append, List.forall_mem_cons]
      exact ⟨⟨lexes_grouped (Expr.lexes_pieces target h.1), lexes_mark dollar (by decide),
        Expr.lexes_pieces key h.2⟩, lexes_mark dollar (by decide), by simp⟩
  | .slice target start stop, h => by
      have bound : ∀ e : Expr, e = .omitted ∨ (∀ p ∈ e.pieces, p.Lexes dollar) →
          ∀ p ∈ e.pieces, p.Lexes dollar := by
        rintro e (rfl | he)
        · simp [Expr.pieces]
        · exact he
      simp only [Expr.pieces, List.forall_mem_append, List.forall_mem_cons]
      exact ⟨⟨⟨lexes_grouped (Expr.lexes_pieces target h.1), lexes_mark dollar (by decide),
        bound start (h.2.1.imp_right (Expr.lexes_pieces start))⟩, lexes_mark dollar (by decide),
        bound stop (h.2.2.imp_right (Expr.lexes_pieces stop))⟩, lexes_mark dollar (by decide),
        by simp⟩
  | .map entries, h => by
      simp only [Expr.pieces, List.forall_mem_append, List.forall_mem_cons]
      exact ⟨⟨lexes_mark dollar (by decide), lexes_piecesOfEntries entries h⟩,
        lexes_mark dollar (by decide), by simp⟩
  | .list items, h => by
      simp only [Expr.pieces, List.forall_mem_append, List.forall_mem_cons]
      exact ⟨⟨lexes_mark dollar (by decide), lexes_piecesOfExprs items h⟩,
        lexes_mark dollar (by decide), by simp⟩

theorem lexes_piecesOfExprs :
    ∀ es : List Expr, WellFormedExprs dollar es → ∀ p ∈ piecesOfExprs es, p.Lexes dollar
  | [], _ => by simp [piecesOfExprs]
  | [e], h => by simpa [piecesOfExprs] using Expr.lexes_pieces e h.1
  | e :: e' :: rest, h => by
      simp only [piecesOfExprs, List.forall_mem_append, List.forall_mem_cons]
      exact ⟨Expr.lexes_pieces e h.1, lexes_mark dollar (by decide),
        lexes_piecesOfExprs (e' :: rest) h.2⟩

theorem lexes_piecesOfEntries :
    ∀ es : List (Expr × Expr), WellFormedEntries dollar es →
      ∀ p ∈ piecesOfEntries es, p.Lexes dollar
  | [], _ => by simp [piecesOfEntries]
  | [(key, value)], h => by
      simp only [piecesOfEntries, List.forall_mem_append, List.forall_mem_cons]
      exact ⟨Expr.lexes_pieces key h.1, lexes_mark dollar (by decide),
        Expr.lexes_pieces value h.2.1⟩
  | (key, value) :: e :: rest, h => by
      simp only [piecesOfEntries, List.forall_mem_append, List.forall_mem_cons]
      exact ⟨⟨Expr.lexes_pieces key h.1, lexes_mark dollar (by decide),
        Expr.lexes_pieces value h.2.1⟩, lexes_mark dollar (by decide),
        lexes_piecesOfEntries (e :: rest) h.2.2⟩

end

theorem lexes_piecesOfNames {names : List String} (h : ∀ x ∈ names, IsName dollar x) :
    ∀ p ∈ piecesOfNames names, p.Lexes dollar := by
  fun_induction piecesOfNames names with
  | case1 => simp
  | case2 name => simpa using lexes_name (h name List.mem_cons_self)
  | case3 name rest _ ih =>
      simp only [List.forall_mem_cons] at h ⊢
      exact ⟨lexes_name h.1, lexes_mark dollar (by decide), ih h.2⟩

/-- A well-formed expression has something to be written down. -/
theorem Expr.pieces_ne_nil {e : Expr} (h : e.WellFormed dollar) : e.pieces ≠ [] := by
  cases e <;> first | exact h.elim | simp [Expr.pieces, grouped]

theorem piecesOfExprs_ne_nil {es : List Expr} (h : WellFormedExprs dollar es) (hne : es ≠ []) :
    piecesOfExprs es ≠ [] := by
  match es, h with
  | [e], h => exact Expr.pieces_ne_nil h.1
  | e :: e' :: rest, _ => simp [piecesOfExprs]

/-- A word of the grammar, then the end of the line. -/
theorem legible_keyword_line {text : String} (h : text ∈ Token.keywords) {tail : List Piece}
    (ht : Legible dollar tail) : Legible dollar (word text :: lineBreak :: tail) :=
  .line (lexes_keyword dollar h) ht

/-- A word of the grammar with an expression, then the end of the line. -/
theorem legible_expr_line {text : String} (h : text ∈ Token.keywords) {e : Expr}
    (he : e.WellFormed dollar) {tail : List Piece} (ht : Legible dollar tail) :
    Legible dollar (word text :: (e.pieces ++ lineBreak :: tail)) :=
  .cons (lexes_keyword dollar h)
    (.append_line (Expr.lexes_pieces e he) (Expr.pieces_ne_nil he) ht)

mutual

theorem Stmt.legible_pieces : ∀ (s : Stmt) (place : Parser.Place), s.WellFormed dollar place →
    ∀ tail, Legible dollar tail → Legible dollar (s.pieces ++ lineBreak :: tail)
  | .expr e, _, h, tail, ht =>
      .append_line (Expr.lexes_pieces e h) (Expr.pieces_ne_nil h) ht
  | .cond test body rest, place, h, tail, ht => by
      simp only [Stmt.pieces, List.append_assoc, List.cons_append]
      refine legible_expr_line (by decide) h.1 (legible_piecesOfBlock body place h.2.1 _ ?_)
      exact Alternative.legible_pieces rest place h.2.2 tail ht
  | .whileLoop test body, place, h, tail, ht => by
      simp only [Stmt.pieces, List.append_assoc, List.cons_append, List.nil_append]
      refine legible_expr_line (by decide) h.1 (legible_piecesOfBlock body _ h.2 _ ?_)
      exact legible_keyword_line (by decide) ht
  | .doWhile test body, place, h, tail, ht => by
      simp only [Stmt.pieces, List.append_assoc, List.cons_append, List.nil_append]
      refine legible_expr_line (by decide) h.1 (legible_piecesOfBlock body _ h.2 _ ?_)
      exact legible_keyword_line (by decide) ht
  | .forEach header iterable body, place, h, tail, ht => by
      simp only [Stmt.pieces, List.append_assoc, List.cons_append, List.nil_append]
      refine .cons (lexes_keyword dollar (by decide)) ?_
      refine .append (.of_forall (lexes_piecesOfNames h.1)) ?_
      refine .cons (lexes_mark dollar (by decide)) ?_
      refine .append_line (Expr.lexes_pieces iterable h.2.1) (Expr.pieces_ne_nil h.2.1) ?_
      exact legible_piecesOfBlock body _ h.2.2 _ (legible_keyword_line (by decide) ht)
  | .select subject arms, place, h, tail, ht => by
      simp only [Stmt.pieces, List.append_assoc, List.cons_append]
      exact legible_expr_line (by decide) h.1 (legible_piecesOfArms arms place h.2 tail ht)
  | .func name params body, _, h, tail, ht => by
      simp only [Stmt.pieces, List.append_assoc, List.cons_append, List.nil_append]
      refine .cons (lexes_keyword dollar (by decide)) (.cons (lexes_name h.1) ?_)
      refine .append_line (lexes_grouped (lexes_piecesOfNames h.2.1)) (by simp [grouped]) ?_
      exact legible_piecesOfBlock body _ h.2.2 _ (legible_keyword_line (by decide) ht)
  | .ret value, _, h, tail, ht => legible_expr_line (by decide) h.2 ht
  | .outer names, _, h, tail, ht => by
      refine .cons (lexes_keyword dollar (by decide)) (.append_line (lexes_piecesOfNames h.2) ?_ ht)
      match names, h.1 with
      | [name], _ => simp [piecesOfNames]
      | name :: name' :: rest, _ => simp [piecesOfNames]
  | .break, _, _, tail, ht => legible_keyword_line (by decide) ht
  | .continue, _, _, tail, ht => legible_keyword_line (by decide) ht
  | .assert test _, _, h, tail, ht => legible_expr_line (by decide) h ht
  | .throw value, _, h, tail, ht => legible_expr_line (by decide) h ht
  | .attempt body name handler, place, h, tail, ht => by
      simp only [Stmt.pieces, List.append_assoc, List.cons_append, List.nil_append]
      refine legible_keyword_line (by decide) (legible_piecesOfBlock body place h.1 _ ?_)
      refine .cons (lexes_keyword dollar (by decide)) (.line (lexes_name h.2.1) ?_)
      exact legible_piecesOfBlock handler place h.2.2 _ (legible_keyword_line (by decide) ht)

theorem Alternative.legible_pieces :
    ∀ (a : Alternative) (place : Parser.Place), a.WellFormed dollar place →
      ∀ tail, Legible dollar tail → Legible dollar (a.pieces ++ lineBreak :: tail)
  | .none, _, _, tail, ht => legible_keyword_line (by decide) ht
  | .otherwise body, place, h, tail, ht => by
      simp only [Alternative.pieces, List.append_assoc, List.cons_append, List.nil_append]
      refine legible_keyword_line (by decide) (legible_piecesOfBlock body place h _ ?_)
      exact legible_keyword_line (by decide) ht
  | .elif test body rest, place, h, tail, ht => by
      simp only [Alternative.pieces, List.append_assoc, List.cons_append]
      refine legible_expr_line (by decide) h.1 (legible_piecesOfBlock body place h.2.1 _ ?_)
      exact Alternative.legible_pieces rest place h.2.2 tail ht

theorem legible_piecesOfArms :
    ∀ (arms : List Arm) (place : Parser.Place), WellFormedArms dollar place arms →
      ∀ tail, Legible dollar tail → Legible dollar (piecesOfArms arms ++ lineBreak :: tail)
  | [], _, _, tail, ht => legible_keyword_line (by decide) ht
  | .mk [] body :: _, place, h, tail, ht => by
      simp only [piecesOfArms, List.append_assoc, List.cons_append, List.nil_append]
      refine legible_keyword_line (by decide) (legible_piecesOfBlock body place h.2.1 _ ?_)
      exact legible_keyword_line (by decide) ht
  | .mk (e :: patterns) body :: rest, place, h, tail, ht => by
      simp only [piecesOfArms, List.append_assoc, List.cons_append]
      refine .cons (lexes_mark dollar (by decide)) ?_
      refine .append_line (lexes_piecesOfExprs (e :: patterns) h.1)
        (piecesOfExprs_ne_nil h.1 (List.cons_ne_nil _ _)) ?_
      refine legible_piecesOfBlock body place h.2.1 _ ?_
      exact legible_piecesOfArms rest place h.2.2.2 tail ht

theorem legible_piecesOfBlock :
    ∀ (body : List Stmt) (place : Parser.Place), WellFormedBlock dollar place body →
      ∀ tail, Legible dollar tail → Legible dollar (piecesOfBlock body ++ tail)
  | [], _, _, tail, ht => ht
  | s :: rest, place, h, tail, ht => by
      simp only [piecesOfBlock, List.append_assoc, List.cons_append]
      exact Stmt.legible_pieces s place h.1 _ (legible_piecesOfBlock rest place h.2 tail ht)

end

/-- The text of a well-formed program is read as the pieces it was put together from. -/
theorem lex_print {program : List Stmt} (h : WellFormed dollar program) :
    (lex dollar (print program)).tokens.map Token.piece = piecesOfBlock program ++ [eof] ∧
      (lex dollar (print program)).fault = none := by
  have legible := legible_piecesOfBlock program _ h [] .nil
  rw [List.append_nil] at legible
  rw [lex, print, String.toList_ofList]
  exact Lexer.tokensFrom_spelled legible 1

example : print [.cond (.binary .lt (.ident "a") (.number "1")) [.ret (.ident "a")] .none] =
    "if ( a ) < ( 1 ) \n return a \n end \n " := by decide

end ScriptLang
