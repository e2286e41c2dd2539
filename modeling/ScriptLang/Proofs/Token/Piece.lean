import Mathlib.Data.List.Find
import ScriptLang.Program.Operator
import ScriptLang.Proofs.Token.Lexeme

/-!
# Writing tokens down

A piece is a token without its line. Pieces are written one after the other with
a blank behind each, and what is written is read as the same pieces: a blank ends
every lexeme, and it never begins one. Line breaks are the exception, since a run
of them is one token; so none stands at the beginning or next to another.
-/

namespace ScriptLang

/-- A token without its line. -/
abbrev Piece := Token.Kind × String

/-- The token without its line. -/
def Token.piece (t : Token) : Piece := (t.kind, t.text)

namespace Piece

/-- A word of the grammar or a name. -/
def word (text : String) : Piece := (.word, text)

/-- A punctuation mark or an operator. -/
def mark (text : String) : Piece := (.punct, text)

/-- The end of a line. -/
def lineBreak : Piece := (.newline, Token.newlineText)

/-- The end of the text. -/
def eof : Piece := (.eof, Token.eofText)

/-- In front of `s`, the text is one lexeme of the kind, and no line break. -/
def LexesBefore (dollar : Bool) (p : Piece) (s : List Char) : Prop :=
  ∃ c rest, p.2.toList = c :: rest ∧ Lexer.isBlank c = false ∧ p.1 ≠ .newline ∧
    Lexer.lexeme dollar c (rest ++ s) = .item p.1 rest.length

/-- Set off by a blank, the text is one lexeme of the kind, and no line break. -/
def Lexes (dollar : Bool) (p : Piece) : Prop :=
  ∃ c rest, p.2.toList = c :: rest ∧ Lexer.isBlank c = false ∧ c ≠ '\n' ∧ c ≠ '#' ∧
    p.1 ≠ .newline ∧ ∀ s, Lexer.lexeme dollar c (rest ++ ' ' :: s) = .item p.1 rest.length

theorem Lexes.before_blank {dollar : Bool} {p : Piece} (h : p.Lexes dollar) (s : List Char) :
    p.LexesBefore dollar (' ' :: s) := by
  obtain ⟨c, rest, ht, hb, -, -, hk, hl⟩ := h
  exact ⟨c, rest, ht, hb, hk, hl s⟩

end Piece

/-- The text of pieces, with a blank behind each. -/
def spelled : List Piece → List Char
  | [] => []
  | p :: rest => p.2.toList ++ ' ' :: spelled rest

/-- Pieces that can be written down: line breaks stand behind another piece. -/
inductive Legible (dollar : Bool) : List Piece → Prop where
  | nil : Legible dollar []
  | cons {p : Piece} {rest : List Piece} :
      p.Lexes dollar → Legible dollar rest → Legible dollar (p :: rest)
  | line {p : Piece} {rest : List Piece} :
      p.Lexes dollar → Legible dollar rest → Legible dollar (p :: .lineBreak :: rest)

namespace Legible

variable {dollar : Bool} {ps qs : List Piece}

theorem of_forall (h : ∀ p ∈ ps, p.Lexes dollar) : Legible dollar ps := by
  induction ps with
  | nil => exact .nil
  | cons p rest ih =>
      exact .cons (h p List.mem_cons_self) (ih fun q hq => h q (List.mem_cons_of_mem _ hq))

theorem append (hp : Legible dollar ps) (hq : Legible dollar qs) : Legible dollar (ps ++ qs) := by
  induction hp with
  | nil => exact hq
  | cons h _ ih => exact .cons h ih
  | line h _ ih => exact .line h ih

/-- A line, and what follows it. -/
theorem append_line (hp : ∀ p ∈ ps, p.Lexes dollar) (hne : ps ≠ []) (hq : Legible dollar qs) :
    Legible dollar (ps ++ .lineBreak :: qs) := by
  induction ps with
  | nil => exact absurd rfl hne
  | cons p rest ih =>
      have first := hp p List.mem_cons_self
      cases rest with
      | nil => exact .line first hq
      | cons q rest =>
          exact .cons first (ih (fun r hr => hp r (List.mem_cons_of_mem _ hr)) (by simp))

end Legible

namespace Lexer

variable {dollar : Bool}

theorem tokensFrom_blank (line : Nat) (cs : List Char) :
    tokensFrom dollar line (' ' :: cs) = tokensFrom dollar line cs :=
  tokensFrom_congr rfl

theorem tokensFrom_piece {p : Piece} {cs : List Char} (h : p.LexesBefore dollar cs) (line : Nat) :
    ∃ line', tokensFrom dollar line (p.2.toList ++ cs) =
      ⟨⟨p.1, p.2, line⟩ :: (tokensFrom dollar line' cs).tokens,
        (tokensFrom dollar line' cs).fault⟩ := by
  obtain ⟨c, rest, ht, hb, hk, hl⟩ := h
  have start : (p.2.toList ++ cs).dropWhile isBlank = c :: (rest ++ cs) := by
    simp [ht, hb]
  have text : tokenText p.1 (c :: rest) = p.2 := by
    rw [tokenText, if_neg hk, ← ht, String.ofList_toList]
  refine ⟨line + (c :: rest).count '\n', ?_⟩
  rw [tokensFrom_item start hl, List.take_left, List.drop_left, text]

/-- A line break in front of a piece takes the blank behind it and nothing else. -/
theorem newlineRun_spelled {ps : List Piece} (h : Legible dollar ps) :
    newlineRun false (' ' :: spelled ps) = 1 := by
  have stops : newlineRun false (spelled ps) = 0 := by
    cases h with
    | nil => rfl
    | cons hp _ | line hp _ =>
        obtain ⟨c, rest, ht, hb, hn, hc, -, -⟩ := hp
        simp [spelled, ht, newlineRun, hb, hn, hc]
  simp [newlineRun, isBlank, stops]

theorem tokensFrom_lineBreak {ps : List Piece} (h : Legible dollar ps) (line : Nat) :
    ∃ line', tokensFrom dollar line (Piece.lineBreak.2.toList ++ ' ' :: spelled ps) =
      ⟨⟨.newline, Token.newlineText, line⟩ :: (tokensFrom dollar line' (spelled ps)).tokens,
        (tokensFrom dollar line' (spelled ps)).fault⟩ := by
  have break_ : lexeme dollar '\n' (' ' :: spelled ps) = .item .newline 1 := by
    rw [lexeme, if_pos (by decide)]
    simp [newlineRun_spelled h]
  refine ⟨line + ['\n', ' '].count '\n', ?_⟩
  rw [tokensFrom_item rfl break_]
  rfl

/-- What is written down is read as the same pieces. -/
theorem tokensFrom_spelled {ps : List Piece} (h : Legible dollar ps) (line : Nat) :
    (tokensFrom dollar line (spelled ps)).tokens.map Token.piece = ps ++ [.eof] ∧
      (tokensFrom dollar line (spelled ps)).fault = none := by
  induction h generalizing line with
  | nil =>
      rw [spelled, tokensFrom_nil rfl]
      exact ⟨rfl, rfl⟩
  | cons hp _ ih =>
      obtain ⟨line', ht⟩ := tokensFrom_piece (hp.before_blank _) line
      rw [spelled, ht, tokensFrom_blank]
      exact ⟨by simp [ih line', Token.piece], (ih line').2⟩
  | @line p rest hp hr ih =>
      obtain ⟨line', ht⟩ := tokensFrom_piece (hp.before_blank (spelled (.lineBreak :: rest))) line
      obtain ⟨line'', hb⟩ := tokensFrom_lineBreak hr line'
      rw [spelled, ht, tokensFrom_blank]
      simp only [spelled, hb]
      exact ⟨by simp [ih line'', Token.piece, Piece.lineBreak], (ih line'').2⟩

end Lexer

/-! ## Pieces of the grammar -/

open Lexer

theorem Piece.lexes_of_lexesAs {dollar : Bool} {kind : Token.Kind} {text : String}
    (hk : keepsText kind = true) (h : LexesAs dollar kind text) :
    Piece.Lexes dollar (kind, text) := by
  obtain ⟨c, rest, ht, hb, hl⟩ := (lexesAs_iff hk).mp h
  have first := (lexeme_eq_item_iff.mp hl).first hk
  simp only [Bool.or_eq_false_iff, beq_eq_false_iff_ne] at first
  refine ⟨c, rest, ht, hb, first.1, first.2, ?_, fun s => ?_⟩
  · rintro rfl
    simp [keepsText] at hk
  · obtain ⟨-, off⟩ := lexeme_take_append (.cons (by decide : ' ' ∈ separators) s) hk hl
    simpa using off

/-- The text is one lexeme of the kind when nothing follows. -/
def Piece.alone (dollar : Bool) (p : Piece) : Bool :=
  match p.2.toList with
  | [] => false
  | c :: rest =>
    !isBlank c && c != '\n' && c != '#' && lexeme dollar c rest == .item p.1 rest.length

theorem Piece.alone_iff {dollar : Bool} {p : Piece} : p.alone dollar = true ↔
    ∃ c rest, p.2.toList = c :: rest ∧ isBlank c = false ∧ c ≠ '\n' ∧ c ≠ '#' ∧
      lexeme dollar c rest = .item p.1 rest.length := by
  unfold alone
  cases p.2.toList with
  | nil => simp
  | cons c rest => simp [and_assoc]

theorem Piece.lexesAs_of_alone {dollar : Bool} {kind : Token.Kind} {text : String}
    (hk : keepsText kind = true) (h : Piece.alone dollar (kind, text) = true) :
    LexesAs dollar kind text := by
  obtain ⟨c, rest, ht, hb, -, -, hl⟩ := alone_iff.mp h
  exact (lexesAs_iff hk).mpr ⟨c, rest, ht, hb, hl⟩

/-- No operator goes on with a character that it does not have. -/
theorem isPrefixOf_append_cons {op : List Char} {b : Char} (h : b ∉ op) (cs s : List Char) :
    op.isPrefixOf (cs ++ b :: s) = op.isPrefixOf cs := by
  induction op generalizing cs with
  | nil => rfl
  | cons a op ih =>
      have first : a ≠ b := fun ha => h (by simp [ha])
      have rest : b ∉ op := fun hm => h (List.mem_cons_of_mem _ hm)
      cases cs with
      | nil => simp [List.isPrefixOf, first]
      | cons c cs => simp [List.isPrefixOf, ih rest]

theorem operator?_append_cons {b : Char} (hb : ∀ op ∈ operators, b ∉ op.toList)
    (cs s : List Char) : operator? (cs ++ b :: s) = operator? cs :=
  List.find?_congr fun op ho => isPrefixOf_append_cons (hb op ho) cs s

theorem operator?_append_blank (cs s : List Char) :
    operator? (cs ++ ' ' :: s) = operator? cs :=
  operator?_append_cons (by decide) cs s

/-- A mark is settled by its own characters. -/
theorem lexeme_punct_append {dollar : Bool} {c : Char} {rest : List Char} {more : Nat}
    (h : lexeme dollar c rest = .item .punct more) (s : List Char) :
    lexeme dollar c (rest ++ ' ' :: s) = .item .punct more := by
  rw [lexeme_eq_item_iff] at h ⊢
  cases h with
  | operator first quote decimal starts found =>
      refine .operator first quote decimal starts ?_
      rwa [← List.cons_append, operator?_append_blank]
  | character first quote decimal starts none control =>
      refine .character first quote decimal starts ?_ control
      rwa [← List.cons_append, operator?_append_blank]

/-- The marks of the grammar. -/
def marks : List String :=
  ["(", ")", "[", "]", "\x7b", "\x7d", ",", ":", "|"] ++ UnaryOp.all.map UnaryOp.spelling ++
    Connective.all.map Connective.spelling

theorem Piece.lexes_mark (dollar : Bool) {text : String} (h : text ∈ marks) :
    (Piece.mark text).Lexes dollar := by
  have alone : ∀ text ∈ marks, ∀ dollar, (mark text).alone dollar = true := by decide
  obtain ⟨c, rest, ht, hb, hn, hc, hl⟩ := alone_iff.mp (alone text h dollar)
  exact ⟨c, rest, ht, hb, hn, hc, by simp [mark], lexeme_punct_append hl⟩

/-- The words of the grammar. -/
theorem Piece.lexes_keyword (dollar : Bool) {text : String} (h : text ∈ Token.keywords) :
    (Piece.word text).Lexes dollar := by
  have alone : ∀ text ∈ Token.keywords, ∀ dollar, (word text).alone dollar = true := by decide
  exact lexes_of_lexesAs rfl (lexesAs_of_alone rfl (alone text h dollar))

end ScriptLang
