import ScriptLang.Proofs.Token.Adjacent
import ScriptLang.Proofs.Token.Append

/-!
# Texts in front of separators

A separator settles the lexeme before it, unless that is a newline run. So a text that does
not end in a line break keeps its tokens in front of a separator, and the tokens of texts with
separators between them are those of the texts, one after the other.
-/

namespace ScriptLang

namespace Lexer

variable {dollar : Bool} {s : List Char} {qs : List Piece}

/-- The tokens of a text are followed by those of another one that begins with a separator. -/
theorem tokensFrom_append_setOff (hs : SetOff s) (later : LexesTo dollar s qs) (line : Nat)
    (cs : List Char) : ∀ ps : List Piece,
      (tokensFrom dollar line cs).tokens.map Token.piece = ps ++ [.eof] →
      (∀ p ∈ ps.getLast?, p.1 ≠ .newline) →
      (tokensFrom dollar line (cs ++ s)).tokens.map Token.piece = ps ++ qs ++ [.eof] ∧
        (tokensFrom dollar line (cs ++ s)).fault = none := by
  have eq_nil {ps : List Piece} (alone : [] ++ [Piece.eof] = ps ++ [.eof]) : [] = ps :=
    List.append_cancel_right alone
  fun_induction tokensFrom dollar line cs with
  | case1 line cs hd =>
      intro ps pieces _
      obtain rfl := eq_nil pieces
      have blank := List.dropWhile_eq_nil_iff.mp hd
      rw [tokensFrom_congr (List.dropWhile_append_of_pos blank)]
      exact later line
  | case2 => simp
  | case3 line cs c rest hd kind more hl slice after ih =>
      intro ps pieces inLine
      cases ps with
      | nil =>
          have eof := congrArg Prod.fst (List.cons.inj pieces).1
          exact absurd eof (lexeme_ne_eof hl)
      | cons p ps =>
          obtain ⟨first, others⟩ := List.cons.inj pieces
          subst first
          have last : ∀ p ∈ ps.getLast?, p.1 ≠ .newline := by
            intro p hp
            refine inLine p ?_
            rw [List.getLast?_cons, Option.mem_def.mp hp]
            rfl
          obtain ⟨gap, rfl, blank⟩ := exists_gap hd
          have start : (gap ++ c :: rest ++ s).dropWhile isBlank = c :: (rest ++ s) := by
            rw [List.append_assoc, List.dropWhile_append_of_pos blank]
            simp [isBlank_of_dropWhile hd]
          obtain ⟨le, same⟩ : more ≤ rest.length ∧
              lexeme dollar c (rest ++ s) = .item kind more := by
            by_cases newline : kind = .newline
            · -- the run is not at the end, so it ends before the text does
              have left : more < rest.length := by
                by_contra whole
                have stop : after = ⟨[Token.endOfText (line + slice.count '\n')], none⟩ :=
                  tokensFrom_nil (by rw [List.drop_of_length_le (Nat.not_lt.mp whole)]; rfl)
                rw [stop] at others
                obtain rfl := eq_nil others
                exact inLine _ rfl newline
              subst newline
              cases lexeme_eq_item_iff.mp hl with
              | newline first =>
                  rw [lexeme, if_pos first, newlineRun_append_of_lt left]
                  exact ⟨left.le, rfl⟩
            · exact lexeme_append_setOff hs hl newline
          obtain ⟨tokens, fault⟩ := ih ps others last
          rw [tokensFrom_item start same, List.take_append_of_le_length le,
            List.drop_append_of_le_length le]
          exact ⟨congrArg (_ :: ·) tokens, fault⟩

end Lexer

open Lexer

namespace LexesTo

variable {dollar : Bool} {s : List Char} {ps : List Piece}

/-- Blanks in front do not matter. -/
theorem gap {gap : List Char} (h : LexesTo dollar s ps) (blank : ∀ c ∈ gap, isBlank c = true) :
    LexesTo dollar (gap ++ s) ps := by
  intro line
  rw [tokensFrom_congr (List.dropWhile_append_of_pos blank)]
  exact h line

end LexesTo

end ScriptLang
