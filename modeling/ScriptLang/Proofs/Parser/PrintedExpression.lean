import ScriptLang.Proofs.Parser.SpelledExpression

/-!
# Reading expressions that were written down

Every well-formed expression is spelled by its pieces, with each operand in
parentheses, so it is read back from them wherever an expression is written.
-/

namespace ScriptLang

open Piece

variable {dollar : Bool}

mutual

theorem Expr.spells_pieces : ∀ e : Expr, e.WellFormed dollar → Spells dollar e.pieces e
  | .ident _, h => .operand (.ident h)
  | .number text, _ => .operand (.number text)
  | .str text, _ => .operand (.str text)
  | .unary op operand, h => .unary op (.group (Expr.spells_pieces operand h))
  | .binary op lhs rhs, h =>
      .binary op (.group (Expr.spells_pieces lhs h.1)) (.group (Expr.spells_pieces rhs h.2))
  | .assign op target value, h =>
      .assign op h.2.1 h.1 (.group (Expr.spells_pieces target h.2.2.1))
        (.operand (.group (Expr.spells_pieces value h.2.2.2)))
  | .call callee args, h => by
      simp only [Expr.pieces, List.append_assoc, List.cons_append]
      exact .operand (.call (.group (Expr.spells_pieces callee h.1)) (spellsList_pieces args h.2))
  | .index target index, h => by
      simp only [Expr.pieces, List.append_assoc, List.cons_append]
      exact .operand
        (.index (.group (Expr.spells_pieces target h.1)) (Expr.spells_pieces index h.2))
  | .slice target start stop, h => by
      have bound : ∀ e : Expr, e = .omitted ∨ Spells dollar e.pieces e →
          SpellsBound dollar e.pieces e := by
        rintro e (rfl | h)
        · exact .omitted
        · exact .expr h
      simp only [Expr.pieces, List.append_assoc, List.cons_append]
      exact .operand (.slice (.group (Expr.spells_pieces target h.1))
        (bound start (h.2.1.imp_right (Expr.spells_pieces start)))
        (bound stop (h.2.2.imp_right (Expr.spells_pieces stop))))
  | .map entries, h => .operand (.map (spellsEntries_pieces entries h))
  | .list items, h => .operand (.list (spellsList_pieces items h))

theorem spellsList_pieces :
    ∀ es : List Expr, WellFormedExprs dollar es → SpellsList dollar (piecesOfExprs es) es
  | [], _ => .nil
  | [e], h => .one (Expr.spells_pieces e h.1)
  | e :: e' :: rest, h => .cons (Expr.spells_pieces e h.1) (spellsList_pieces (e' :: rest) h.2)

theorem spellsEntries_pieces :
    ∀ es : List (Expr × Expr), WellFormedEntries dollar es →
      SpellsEntries dollar (piecesOfEntries es) es
  | [], _ => .nil
  | [(key, value)], h => .one (Expr.spells_pieces key h.1) (Expr.spells_pieces value h.2.1)
  | (key, value) :: entry :: rest, h => by
      simp only [piecesOfEntries, List.append_assoc, List.cons_append]
      exact .cons (Expr.spells_pieces key h.1) (Expr.spells_pieces value h.2.1)
        (spellsEntries_pieces (entry :: rest) h.2.2)

end

theorem Expr.opens {e : Expr} (h : e.WellFormed dollar) (tail : List Piece) :
    (front (e.pieces ++ tail)).Opens :=
  (Expr.spells_pieces e h).opens tail

namespace Parser

theorem readable {e : Expr} (h : e.WellFormed dollar) : Readable e.pieces e :=
  readable_of_spells (Expr.spells_pieces e h)

/-- The expressions of an arm, up to the end of their line. -/
theorem reads_arguments {tail : List Piece} :
    ∀ (e : Expr) (es : List Expr) (fuel : Nat), WellFormedExprs dollar (e :: es) →
      8 * (piecesOfExprs (e :: es)).length + 8 ≤ fuel →
      Reads (arguments fuel) (piecesOfExprs (e :: es) ++ lineBreak :: tail) (lineBreak :: tail)
        (· = e :: es)
  | e, [], fuel + 1, h, hf => by
      unfold arguments
      simp only [piecesOfExprs] at hf ⊢
      have ends : lineBreak ∈ ends := by decide
      refine .bind (readable h.1 fuel 0 _ (by omega) (by omega) ends) ?_
      rintro _ rfl
      exact .eat_false rfl (.pure rfl)
  | e, e' :: rest, fuel + 1, h, hf => by
      unfold arguments
      simp only [piecesOfExprs, List.append_assoc, List.cons_append, List.length_append,
        List.length_cons] at hf ⊢
      have comma : mark "," ∈ ends := by decide
      refine .bind (readable h.1 fuel 0 _ (by omega) (by omega) comma) ?_
      rintro _ rfl
      refine .eat_true rfl (.bind (reads_arguments e' rest fuel h.2 (by omega)) ?_)
      rintro _ rfl
      exact .pure rfl

end Parser

end ScriptLang
