import ScriptLang.Proofs.Token.Piece

/-!
# Tokens without blanks between them

A piece needs no blank behind it where what follows does not go on with it: a
string or a bracket never does, a word or a number needs a separator, and an
operator in front of its operand must not meet an equals sign.
-/

namespace ScriptLang

open Lexer

/-- The text is read as the pieces, and nothing in it is at fault. -/
def LexesTo (dollar : Bool) (s : List Char) (ps : List Piece) : Prop :=
  ∀ line, (tokensFrom dollar line s).tokens.map Token.piece = ps ++ [.eof] ∧
    (tokensFrom dollar line s).fault = none

namespace LexesTo

variable {dollar : Bool} {s : List Char} {ps : List Piece}

theorem blank (h : LexesTo dollar s ps) : LexesTo dollar (' ' :: s) ps := by
  intro line
  rw [tokensFrom_blank]
  exact h line

theorem piece {p : Piece} (hp : p.LexesBefore dollar s) (h : LexesTo dollar s ps) :
    LexesTo dollar (p.2.toList ++ s) (p :: ps) := by
  intro line
  obtain ⟨line', ht⟩ := tokensFrom_piece hp line
  obtain ⟨tokens, fault⟩ := h line'
  rw [ht]
  refine ⟨?_, fault⟩
  rw [List.map_cons, tokens]
  rfl

/-- The end of the only line. -/
theorem lineBreak : LexesTo dollar ['\n'] [.lineBreak] := by
  intro line
  have single : lexeme dollar '\n' [] = .item .newline 0 := rfl
  rw [tokensFrom_item rfl single, tokensFrom_nil rfl]
  exact ⟨rfl, rfl⟩

end LexesTo

namespace Piece

variable {dollar : Bool} {s : List Char}

theorem lexesBefore_of_setOff {kind : Token.Kind} {text : String} (hk : keepsText kind = true)
    (h : LexesAs dollar kind text) (hs : SetOff s) : LexesBefore dollar (kind, text) s := by
  obtain ⟨c, rest, ht, hb, hl⟩ := (lexesAs_iff hk).mp h
  obtain ⟨-, off⟩ := lexeme_take_append hs hk hl
  rw [List.take_length] at off
  refine ⟨c, rest, ht, hb, ?_, off⟩
  rintro rfl
  simp [keepsText] at hk

/-- A string is closed by its own quote, whatever follows. -/
theorem lexesBefore_quote {text : String} (h : LexesAs dollar .quote text) (s : List Char) :
    LexesBefore dollar (.quote, text) s := by
  obtain ⟨c, rest, ht, hb, hl⟩ := (lexesAs_iff rfl).mp h
  refine ⟨c, rest, ht, hb, by simp, ?_⟩
  cases lexeme_eq_item_iff.mp hl with
  | quote first quote run =>
      obtain ⟨-, run⟩ := stringRun_take_append s run
      rw [List.take_length] at run
      exact lexeme_eq_item_iff.mpr (.quote first quote run)

/-- The marks of one character that no operator begins with. -/
def brackets : List String := ["(", ")", "[", "]", "\x7b", "\x7d", ",", ":"]

theorem lexesBefore_bracket {text : String} (h : text ∈ brackets) (s : List Char) :
    LexesBefore dollar (mark text) s := by
  simp only [brackets, List.mem_cons, List.not_mem_nil, or_false] at h
  rcases h with rfl | rfl | rfl | rfl | rfl | rfl | rfl | rfl
  all_goals exact ⟨_, [], rfl, rfl, by simp [mark], by cases dollar <;> rfl⟩

/-- What begins an operator of several characters is followed by its second one. -/
theorem operator?_eq_none {c : Char}
    (h : ∀ op ∈ operators, op.toList.head? = some c → op.toList.tail.head? = some '=')
    (hs : s.head? ≠ some '=') : operator? (c :: s) = none := by
  have long : ∀ op ∈ operators, op.toList ≠ [] := by decide
  refine List.find?_eq_none.mpr fun op ho is_op => ?_
  obtain ⟨t, ht⟩ := List.isPrefixOf_iff_prefix.mp is_op
  match hop : op.toList with
  | [] => exact long op ho hop
  | a :: rest =>
      rw [hop] at ht
      obtain ⟨rfl, rfl⟩ := List.cons.inj ht
      have second : rest.head? = some '=' := by simpa [hop] using h op ho
      cases rest with
      | nil => cases second
      | cons b rest => exact hs second

/-- An operator stands right before its operand, unless that begins with an equals sign. -/
theorem lexesBefore_unary (op : UnaryOp) (hs : s.head? ≠ some '=') :
    LexesBefore dollar (mark op.spelling) s := by
  have sign : ∀ c ∈ ['!', '~', '-'], LexesBefore dollar (mark (String.singleton c)) s := by
    intro c hc
    have first : ∀ c ∈ ['!', '~', '-'], ∀ op ∈ operators, op.toList.head? = some c →
        op.toList.tail.head? = some '=' := forall_mem_of_all (by decide)
    have plain : ∀ c ∈ ['!', '~', '-'], isBlank c = false ∧ (c == '\n' || c == '#') = false ∧
        (c == '"' || c == '\'') = false ∧ isDecimal c = false ∧
        (∀ dollar, startsWord dollar c = false) ∧ isControl c = false :=
      forall_mem_of_all (by decide)
    obtain ⟨hb, hn, hq, hd, hw, hctrl⟩ := plain c hc
    refine ⟨c, [], by simp [mark], hb, by simp [mark], ?_⟩
    simp [lexeme, hn, hq, hd, hw, hctrl, operator?_eq_none (first c hc) hs, mark]
  cases op with
  | not => exact sign '!' (by decide)
  | bitNot => exact sign '~' (by decide)
  | neg => exact sign '-' (by decide)

end Piece

namespace LexesTo

variable {dollar : Bool} {text : String} {s : List Char} {ps : List Piece}

theorem bracket (text : String) (ht : text ∈ Piece.brackets) (h : LexesTo dollar s ps) :
    LexesTo dollar (text.toList ++ s) (.mark text :: ps) :=
  .piece (Piece.lexesBefore_bracket ht s) h

/-- An operator with a blank on either side. -/
theorem operator (ht : text ∈ marks) (h : LexesTo dollar s ps) :
    LexesTo dollar (' ' :: (text.toList ++ ' ' :: s)) (.mark text :: ps) :=
  .blank (.piece ((Piece.lexes_mark dollar ht).before_blank s) h.blank)

end LexesTo

end ScriptLang
