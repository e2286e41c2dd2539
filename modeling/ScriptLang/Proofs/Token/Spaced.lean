import ScriptLang.Proofs.Token.Adjacent
import ScriptLang.Proofs.Token.Coverage

/-!
# Single blanks between tokens

A token is one lexeme by itself, and a blank behind it settles where it ends. So the
texts of the tokens of a text, with single blanks between them, are read as the same
tokens. Blanks behind a line break belong to it, and no line break stands next to
another, so line breaks stay apart.
-/

namespace ScriptLang

open Lexer

variable {dollar : Bool}

/-! ## Line breaks -/

namespace LexesTo

variable {s : List Char} {ps : List Piece}

theorem nil : LexesTo dollar [] [] := by
  intro line
  rw [tokensFrom_nil rfl]
  exact ⟨rfl, rfl⟩

theorem blanks (n : Nat) (h : LexesTo dollar s ps) :
    LexesTo dollar (List.replicate n ' ' ++ s) ps := by
  induction n with
  | zero => exact h
  | succ n ih => exact ih.blank

/-- The blanks behind a line break belong to it. -/
theorem lineBreak_blanks (n : Nat) (first : BeginsOther s) (h : LexesTo dollar s ps) :
    LexesTo dollar ('\n' :: (List.replicate n ' ' ++ s)) (.lineBreak :: ps) := by
  have run : newlineRun false (List.replicate n ' ' ++ s) = n := by
    have blank : ∀ c ∈ List.replicate n ' ', isBlank c = true := by simp [isBlank]
    rw [newlineRun_blanks_append blank, newlineRun_of_beginsOther first, List.length_replicate,
      Nat.add_zero]
  have lineBreak : lexeme dollar '\n' (List.replicate n ' ' ++ s) = .item .newline n := by
    rw [lexeme, if_pos (by decide)]
    exact congrArg (Lexeme.item .newline) run
  intro line
  rw [tokensFrom_item rfl lineBreak, List.drop_left' List.length_replicate]
  obtain ⟨tokens, fault⟩ := h (line + ('\n' :: (List.replicate n ' ' ++ s).take n).count '\n')
  refine ⟨?_, fault⟩
  rw [List.map_cons, tokens]
  rfl

end LexesTo

/-! ## Tokens by themselves -/

namespace Lexer

variable {c : Char} {rest : List Char} {kind : Token.Kind} {more : Nat}

theorem operator?_singleton (c : Char) : operator? [c] = none := by
  have long : ∀ op ∈ operators, 2 ≤ op.toList.length := by decide
  refine List.find?_eq_none.mpr fun op ho begins => ?_
  have short := (List.isPrefixOf_iff_prefix.mp begins).length_le
  exact absurd (Nat.le_trans (long op ho) short) (by simp)

/-- The slice of an operator is the operator. -/
theorem slice_of_operator? {op : String} (h : operator? (c :: rest) = some op) :
    String.ofList (c :: rest.take (op.length - 1)) = op := by
  have long : ∀ op ∈ operators, 0 < op.toList.length := by decide
  have positive := long op (List.mem_of_find?_eq_some h)
  have begins : op.toList.isPrefixOf (c :: rest) = true := List.find?_some (p := fun op : String =>
    op.toList.isPrefixOf (c :: rest)) h
  have taken := List.prefix_iff_eq_take.mp (List.isPrefixOf_iff_prefix.mp begins)
  rw [← Nat.sub_add_cancel positive, List.take_succ_cons] at taken
  rw [← String.length_toList, ← taken, String.ofList_toList]

/-- A lexeme that is no line break is one by itself. -/
theorem alone_of_lexeme (blank : isBlank c = false)
    (h : lexeme dollar c rest = .item kind more) (other : kind ≠ .newline) :
    Piece.alone dollar (kind, String.ofList (c :: rest.take more)) = true := by
  have kept (hk : keepsText kind = true) :
      Piece.alone dollar (kind, String.ofList (c :: rest.take more)) = true := by
    have first := (lexeme_eq_item_iff.mp h).first hk
    simp only [Bool.or_eq_false_iff, beq_eq_false_iff_ne] at first
    obtain ⟨le, alone⟩ := lexeme_take_append .nil hk h
    refine Piece.alone_iff.mpr ⟨c, rest.take more, by simp, blank, first.1, first.2, ?_⟩
    rw [List.length_take, Nat.min_eq_left le]
    simpa using alone
  cases lexeme_eq_item_iff.mp h with
  | newline => exact absurd rfl other
  | quote | number | word => exact kept rfl
  | operator _ _ _ _ found =>
      have known : ∀ op ∈ operators, ∀ dollar, (Piece.mark op).alone dollar = true := by decide
      rw [slice_of_operator? found]
      exact known _ (List.mem_of_find?_eq_some found) dollar
  | character first quote decimal starts _ control =>
      have single : lexeme dollar c [] = .item .punct 0 :=
        lexeme_eq_item_iff.mpr
          (.character first quote decimal starts (operator?_singleton c) control)
      simp only [Bool.or_eq_false_iff, beq_eq_false_iff_ne] at first
      exact Piece.alone_iff.mpr ⟨c, [], by simp, blank, first.1, first.2, single⟩

/-- A token of a text that is neither a line break nor the end is a token by itself. -/
theorem alone_of_mem {line : Nat} {cs : List Char} {t : Token}
    (h : t ∈ (tokensFrom dollar line cs).tokens) (other : t.kind ≠ .newline)
    (eof : t.kind ≠ .eof) : t.piece.alone dollar = true := by
  fun_induction tokensFrom dollar line cs with
  | case1 =>
      obtain rfl := List.mem_singleton.mp h
      exact absurd rfl eof
  | case2 => cases h
  | case3 line cs c rest hd kind more hl slice after ih =>
      rcases List.mem_cons.mp h with rfl | h
      · have text : tokenText kind slice = String.ofList slice := if_neg other
        rw [Token.piece, text]
        exact alone_of_lexeme (isBlank_of_dropWhile hd) hl other
      · exact ih h

end Lexer

namespace Piece

variable {p : Piece}

theorem kind_ne_of_alone (h : p.alone dollar = true) : p.1 ≠ .newline := by
  obtain ⟨c, rest, -, -, feed, comment, hl⟩ := alone_iff.mp h
  intro newline
  rw [newline] at hl
  rcases (isNewlineRun_of_lexeme hl).1 with rfl | rfl
  · exact feed rfl
  · exact comment rfl

/-- A lexeme by itself is one in front of a blank. -/
theorem lexes_of_alone (h : p.alone dollar = true) : p.Lexes dollar := by
  have other := kind_ne_of_alone h
  obtain ⟨c, rest, ht, blank, feed, comment, hl⟩ := alone_iff.mp h
  refine ⟨c, rest, ht, blank, feed, comment, other, fun s => ?_⟩
  have off : SetOff (' ' :: s) := .cons (by decide) s
  have kept (hk : keepsText p.1 = true) : lexeme dollar c (rest ++ ' ' :: s) =
      .item p.1 rest.length := by
    obtain ⟨-, settled⟩ := lexeme_take_append off hk hl
    rwa [List.take_length] at settled
  cases hk : p.1 with
  | word | number | quote => exact hk ▸ kept (by rw [hk]; rfl)
  | punct =>
      rw [hk] at hl
      exact lexeme_punct_append hl s
  | newline => exact absurd hk other
  | eof => exact absurd hk (lexeme_ne_eof hl)

theorem Lexes.beginsOther (h : p.Lexes dollar) (s : List Char) :
    BeginsOther (p.2.toList ++ s) := by
  obtain ⟨c, rest, ht, blank, feed, comment, -, -⟩ := h
  rw [ht]
  rintro _ ⟨⟩
  exact ⟨blank, by simp [feed, comment]⟩

end Piece

/-! ## Texts -/

/-- The texts of pieces with single blanks between them. -/
def spacedOut (ps : List Piece) : String := String.intercalate " " (ps.map Prod.snd)

/-- Line breaks that stand apart and other lexemes are read as they were. -/
theorem lexesTo_spacedOut {ps : List Piece} (h : ∀ p ∈ ps, p = .lineBreak ∨ p.alone dollar = true)
    (apart : ps.IsChain fun p q => ¬(p = .lineBreak ∧ q = .lineBreak)) :
    LexesTo dollar (spacedOut ps).toList ps := by
  induction ps with
  | nil => exact .nil
  | cons p rest ih =>
      obtain ⟨first, others⟩ := List.forall_mem_cons.mp h
      cases rest with
      | nil =>
          rw [spacedOut, List.map_singleton, String.intercalate_singleton]
          rcases first with rfl | alone
          · exact .lineBreak
          · obtain ⟨c, rest, ht, blank, -, -, hl⟩ := Piece.alone_iff.mp alone
            have before : p.LexesBefore dollar [] :=
              ⟨c, rest, ht, blank, Piece.kind_ne_of_alone alone, by rwa [List.append_nil]⟩
            simpa using LexesTo.piece before .nil
      | cons q rest =>
          have later := ih others apart.tail
          have text : (spacedOut (p :: q :: rest)).toList =
              p.2.toList ++ ' ' :: (spacedOut (q :: rest)).toList := by
            simp [spacedOut, String.intercalate_cons_cons]
          rw [text]
          rcases first with rfl | alone
          · have break_ : q ≠ .lineBreak := fun hq => (List.isChain_cons_cons.mp apart).1 ⟨rfl, hq⟩
            have alone := ((List.forall_mem_cons.mp others).1).resolve_left break_
            obtain ⟨s, hs⟩ : ∃ s, (spacedOut (q :: rest)).toList = q.2.toList ++ s := by
              cases rest with
              | nil => exact ⟨[], by simp [spacedOut]⟩
              | cons r rest => exact ⟨_, by simp [spacedOut, String.intercalate_cons_cons]; rfl⟩
            have begins := (Piece.lexes_of_alone alone).beginsOther s
            rw [← hs] at begins
            exact later.lineBreak_blanks 1 begins
          · exact .piece ((Piece.lexes_of_alone alone).before_blank _) later.blank

/-- The texts of the tokens of a text, the end left out, with single blanks between them. -/
def respaced (tokens : List Token) : String :=
  spacedOut ((tokens.filter (·.kind ≠ .eof)).map Token.piece)

/-- What is written with single blanks between its tokens is read as the same tokens. -/
theorem lex_respaced {source : String} (h : (lex dollar source).fault = none) :
    (lex dollar (respaced (lex dollar source).tokens)).fault = none ∧
      (lex dollar (respaced (lex dollar source).tokens)).tokens.map Token.piece =
        (lex dollar source).tokens.map Token.piece := by
  obtain ⟨segments, rest, covers⟩ := lex_covers dollar source
  obtain ⟨whole, -⟩ := covers.finished h
  let front := segments.map Segment.token
  have cut : ∀ t ∈ front, t.kind ≠ .eof ∧ (t.kind = .newline → t.piece = .lineBreak) := by
    intro t ht
    obtain ⟨s, hs, rfl⟩ := List.mem_map.mp ht
    have cut := covers.cut s hs
    exact ⟨cut.kind, fun newline => Prod.ext newline (cut.newline newline).1⟩
  have text : respaced (lex dollar source).tokens = spacedOut (front.map Token.piece) := by
    have kept : front.filter (·.kind ≠ .eof) = front :=
      List.filter_eq_self.mpr fun t ht => decide_eq_true (cut t ht).1
    rw [respaced, whole, List.filter_append, kept]
    simp [Token.endOfText]
  have lexes : LexesTo dollar (spacedOut (front.map Token.piece)).toList
      (front.map Token.piece) := by
    apply lexesTo_spacedOut
    · intro p hp
      obtain ⟨t, ht, rfl⟩ := List.mem_map.mp hp
      by_cases newline : t.kind = .newline
      · exact .inl ((cut t ht).2 newline)
      · have mem : t ∈ (lex dollar source).tokens := by
          rw [whole]
          exact List.mem_append_left _ ht
        exact .inr (alone_of_mem mem newline (cut t ht).1)
    · have apart := covers.apart
      rw [whole] at apart
      refine (List.isChain_map _).mpr (apart.left_of_append.imp fun s t apart => ?_)
      rintro ⟨first, second⟩
      exact apart ⟨congrArg Prod.fst first, congrArg Prod.fst second⟩
  obtain ⟨tokens, fault⟩ := lexes 1
  rw [text, whole, List.map_append]
  exact ⟨fault, tokens⟩

end ScriptLang
