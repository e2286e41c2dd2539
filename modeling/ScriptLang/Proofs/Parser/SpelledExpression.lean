import ScriptLang.Proofs.Parser.Acceptance
import ScriptLang.Proofs.Program.Spelling

/-!
# Reading expressions that are spelled out

However an expression is spelled, it is read back from its pieces wherever one is
written, given nesting enough for their number. An operand is read with what goes on
with it, since a suffix may follow; what follows a whole expression ends it.
-/

namespace ScriptLang

open Piece

/-! ## Pieces next to an expression -/

namespace Piece

/-- The pieces that end an expression. -/
def ends : List Piece := [lineBreak, mark ")", mark "]", mark "\x7d", mark ",", mark ":"]

/-- The piece is none of those that go on with a term. -/
def EndsTerm (p : Piece) : Prop := ∀ text ∈ ["(", ".", "["], p.is text = false

/-- The words and marks that end or divide what encloses an expression. -/
def closers : List String := Token.keywords ++ [")", "]", "\x7d", ",", ":", "|"]

/-- The piece may begin an expression, and nothing else. -/
structure Opens (p : Piece) : Prop where
  not_newline : p.1 ≠ .newline
  not_eof : p.1 ≠ .eof
  not_closer : ∀ text ∈ closers, p.is text = false

theorem endsTerm_of_ends {p : Piece} (h : p ∈ ends) : p.EndsTerm := by
  have : ∀ p ∈ ends, ∀ text ∈ ["(", ".", "["], p.is text = false := by decide
  exact this p h

theorem endsTerm_spelling {c : Connective} (h : c ∈ Connective.all) :
    (mark c.spelling).EndsTerm := by
  have : ∀ c ∈ Connective.all, ∀ text ∈ ["(", ".", "["], (mark c.spelling).is text = false := by
    decide
  exact this c h

theorem connective_of_ends {p : Piece} (h : p ∈ ends) (line : Nat) :
    Connective.ofToken? (p.at line) = none := by
  have : ∀ p ∈ ends, Connective.ofToken? (p.at 0) = none := by decide
  exact this p h

theorem connective_spelling {c : Connective} (h : c ∈ Connective.all) (line : Nat) :
    Connective.ofToken? ((mark c.spelling).at line) = some c := by
  have : ∀ c ∈ Connective.all, Connective.ofToken? ((mark c.spelling).at 0) = some c := by decide
  exact this c h

theorem unary_spelling (op : UnaryOp) (line : Nat) :
    UnaryOp.ofToken? ((mark op.spelling).at line) = some op := by
  cases op <;> rfl

theorem opens_mark {text : String} (h : text ∈ ["(", "[", "\x7b", "!", "~", "-"]) :
    (mark text).Opens := by
  have : ∀ text ∈ ["(", "[", "\x7b", "!", "~", "-"], ∀ closer ∈ closers,
      (mark text).is closer = false := by decide
  exact ⟨by rintro ⟨⟩, by rintro ⟨⟩, this text h⟩

/-- No mark of the grammar is a word. -/
theorem not_mem_marks_of_isName {dollar : Bool} {x : String} (h : IsName dollar x) :
    x ∉ marks := by
  intro hm
  obtain ⟨c, rest, ht, -, -, -, -, hw⟩ := lexes_name h
  obtain ⟨c', rest', ht', -, -, -, -, hl⟩ := lexes_mark dollar hm
  obtain ⟨rfl, rfl⟩ := List.cons.inj (ht.symm.trans ht')
  have kinds := (hw []).symm.trans (hl [])
  cases kinds

theorem opens_name {dollar : Bool} {x : String} (h : IsName dollar x) : (word x).Opens := by
  refine ⟨by rintro ⟨⟩, by rintro ⟨⟩, fun text ht => ?_⟩
  have other : x ≠ text := by
    rintro rfl
    rcases List.mem_append.mp ht with hk | hm
    · have keyword : Token.isKeyword x = true := by simpa [Token.isKeyword] using hk
      exact Bool.false_ne_true (h.2.symm.trans keyword)
    · have marked : ∀ text ∈ [")", "]", "\x7d", ",", ":", "|"], text ∈ marks := by decide
      exact not_mem_marks_of_isName h (marked x hm)
  simp [Piece.is, word, other]

end Piece

mutual

theorem Spells.opens {dollar : Bool} {ps : List Piece} {e : Expr} (tail : List Piece) :
    Spells dollar ps e → (front (ps ++ tail)).Opens
  | .operand h => h.opens tail
  | .unary op _ => by cases op <;> exact opens_mark (by decide)
  | .binary op hl _ => by
      rw [List.append_assoc]
      exact hl.opens _
  | .assign op _ _ ht _ => by
      rw [List.append_assoc]
      exact ht.opens _

theorem SpellsOperand.opens {dollar : Bool} {ps : List Piece} {e : Expr} (tail : List Piece) :
    SpellsOperand dollar ps e → (front (ps ++ tail)).Opens
  | .group _ => opens_mark (by decide)
  | .ident h => opens_name h
  | .number _ => ⟨by rintro ⟨⟩, by rintro ⟨⟩, fun _ _ => rfl⟩
  | .str _ => ⟨by rintro ⟨⟩, by rintro ⟨⟩, fun _ _ => rfl⟩
  | .call hc _ => by
      rw [List.append_assoc]
      exact hc.opens _
  | .index ht _ => by
      rw [List.append_assoc]
      exact ht.opens _
  | .slice ht _ _ => by
      rw [List.append_assoc]
      exact ht.opens _
  | .map _ => opens_mark (by decide)
  | .list _ => opens_mark (by decide)

end

/-- No line break stands at the beginning of a list. -/
theorem SpellsList.not_newline {dollar : Bool} {ps : List Piece} {es : List Expr}
    (h : SpellsList dollar ps es) (close : String) (tail : List Piece) :
    (front (ps ++ mark close :: tail)).1 ≠ .newline := by
  cases h with
  | nil => rintro ⟨⟩
  | one h => exact (h.opens _).not_newline
  | cons h _ =>
      rw [List.append_assoc]
      exact (h.opens _).not_newline

theorem SpellsEntries.not_newline {dollar : Bool} {ps : List Piece} {es : List (Expr × Expr)}
    (h : SpellsEntries dollar ps es) (close : String) (tail : List Piece) :
    (front (ps ++ mark close :: tail)).1 ≠ .newline := by
  cases h with
  | nil => rintro ⟨⟩
  | one h _ =>
      rw [List.append_assoc]
      exact (h.opens _).not_newline
  | cons h _ _ =>
      rw [List.append_assoc]
      exact (h.opens _).not_newline

theorem Connective.one_le_precedence (c : Connective) : 1 ≤ c.precedence := by
  cases c with
  | binary op => cases op <;> decide
  | assign op => exact le_rfl

namespace Parser

variable {dollar : Bool} {fuel least k : Nat} {e : Expr} {es : List Expr}
  {ps before mid after tail : List Piece} {P : Expr → Prop}

/-- With nesting enough for its pieces, the expression is read from them. Nothing
binds more loosely than an assignment. -/
def Readable (ps : List Piece) (e : Expr) : Prop :=
  ∀ fuel least tail, 8 * ps.length ≤ fuel → least ≤ 1 → front tail ∈ ends →
    Reads (expression fuel least) (ps ++ tail) tail (· = e)

/-- The pieces begin like an expression, and are read as one in front of what ends it. -/
structure Stands (ps : List Piece) (e : Expr) : Prop where
  opens : ∀ tail, (front (ps ++ tail)).Opens
  reads : ∀ fuel tail, 8 * ps.length + 3 ≤ fuel → front tail ∈ ends →
    Reads (expression fuel 0) (ps ++ tail) tail (· = e)

/-- The operand is read from its pieces whatever its suffixes make of it, which are
given nesting `k`. -/
def ReadableOperand (ps : List Piece) (e : Expr) : Prop :=
  ∀ k fuel mid after P, 8 * ps.length + k ≤ fuel + 6 →
    (∀ fuel', k ≤ fuel' → Reads (suffixes fuel' e) mid after P) →
    Reads (operand fuel) (ps ++ mid) after P

/-- The bound of a slice is read up to the mark that it is left out before. -/
def ReadableBound (ps : List Piece) (e : Expr) : Prop :=
  ∀ fuel text mid after P (k : Expr → Parser Expr), 8 * ps.length ≤ fuel → text ∈ closers →
    mark text ∈ ends → Reads (k e) (mark text :: mid) after P →
    Reads (atLexeme text >>= fun found =>
      if found = true then pure .omitted >>= k else expression fuel 0 >>= k)
      (ps ++ mark text :: mid) after P

/-- The expressions of a list are read up to the mark that closes it. -/
def ReadableList (ps : List Piece) (es : List Expr) : Prop :=
  ∀ fuel close tail, 8 * ps.length + 8 ≤ fuel → close ∈ closers → mark close ∈ ends →
    close ≠ "," → Reads (elements fuel close) (ps ++ mark close :: tail) tail (· = es)

/-- The entries of a map are read up to the brace that closes it. -/
def ReadableEntries (ps : List Piece) (es : List (Expr × Expr)) : Prop :=
  ∀ fuel tail, 8 * ps.length + 8 ≤ fuel →
    Reads (entries fuel) (ps ++ mark "\x7d" :: tail) tail (· = es)

/-! ## Operands -/

theorem reads_climb_end (hf : 0 < fuel)
    (ht : ∀ line, Connective.ofToken? ((front tail).at line) = none) :
    Reads (climb fuel least e) tail tail (· = e) := by
  match fuel with
  | fuel + 1 =>
      unfold climb
      refine .peek fun line => ?_
      rw [ht]
      exact .pure rfl

theorem reads_suffixes_end (hf : 0 < fuel) (ht : (front tail).EndsTerm) :
    Reads (suffixes fuel e) tail tail (· = e) := by
  match fuel with
  | fuel + 1 =>
      unfold suffixes
      refine .eat_false (ht "(" (by decide)) (.eat_false (ht "." (by decide)) ?_)
      exact .eat_false (ht "[" (by decide)) (.pure rfl)

/-- An operand without suffixes. -/
theorem ReadableOperand.ended (h : ReadableOperand ps e) (hf : 8 * ps.length ≤ fuel + 5)
    (ht : (front tail).EndsTerm) : Reads (operand fuel) (ps ++ tail) tail (· = e) :=
  h 1 fuel tail tail _ (by omega) fun _ hf' => reads_suffixes_end hf' ht

/-- An operand that is a term. -/
theorem reads_operand (hf : k ≤ fuel + 1)
    (hu : ∀ line, UnaryOp.ofToken? ((front before).at line) = none)
    (h : Reads (term (fuel + 1)) before mid (· = e))
    (hs : ∀ fuel', k ≤ fuel' → Reads (suffixes fuel' e) mid after P) :
    Reads (operand (fuel + 2)) before after P := by
  unfold operand
  refine .peek fun line => ?_
  rw [hu line]
  refine .bind h ?_
  rintro _ rfl
  exact hs (fuel + 1) hf

/-- A mark in front is neither a literal nor a name. -/
theorem reads_no_atom {quote number name : Token → Parser Expr} {other : Parser Expr}
    (hm : (front before).1 = .punct) (h : Reads other before after P) :
    Reads (peek >>= fun t =>
      if t.kind = .quote then quote t
      else if t.kind = .number then number t
      else if t.isName = true then name t
      else other) before after P := by
  refine .peek fun line => .of_false ?_ (.of_false ?_ (.of_false ?_ h))
  all_goals simp [Token.isName, Piece.at, hm]

namespace ReadableOperand

theorem ident {name : String} (h : IsName dollar name) :
    ReadableOperand [word name] (.ident name) := by
  intro k fuel mid after P hf hs
  simp only [List.length_singleton] at hf
  obtain ⟨fuel, rfl⟩ : ∃ f, fuel = f + 2 := ⟨fuel - 2, by omega⟩
  refine reads_operand (by omega) (fun _ => rfl) ?_ hs
  unfold term
  refine .peek fun line => .of_false (by rintro ⟨⟩) (.of_false (by rintro ⟨⟩) (.of_true ?_ ?_))
  · simp [Token.isName, front, Piece.at, word, h.2]
  · exact .advance fun _ => .pure rfl

theorem number (text : String) : ReadableOperand [(.number, text)] (.number text) := by
  intro k fuel mid after P hf hs
  simp only [List.length_singleton] at hf
  obtain ⟨fuel, rfl⟩ : ∃ f, fuel = f + 2 := ⟨fuel - 2, by omega⟩
  refine reads_operand (by omega) (fun _ => rfl) ?_ hs
  unfold term
  refine .peek fun line => .of_false (by rintro ⟨⟩) (.of_true rfl ?_)
  exact .advance fun _ => .pure rfl

theorem str (text : String) : ReadableOperand [(.quote, text)] (.str text) := by
  intro k fuel mid after P hf hs
  simp only [List.length_singleton] at hf
  obtain ⟨fuel, rfl⟩ : ∃ f, fuel = f + 2 := ⟨fuel - 2, by omega⟩
  refine reads_operand (by omega) (fun _ => rfl) ?_ hs
  unfold term
  exact .peek fun line => .of_true rfl (.advance fun _ => .pure rfl)

theorem group (h : Stands ps e) : ReadableOperand (grouped ps) e := by
  intro k fuel mid after P hf hk
  simp only [grouped, List.length_append, List.length_cons, List.length_nil] at hf
  obtain ⟨fuel, rfl⟩ : ∃ f, fuel = f + 2 := ⟨fuel - 2, by omega⟩
  refine reads_operand (by omega) (fun _ => rfl) ?_ hk
  unfold term
  simp only [grouped, List.cons_append, List.append_assoc, List.nil_append]
  refine reads_no_atom rfl (.eat_true rfl (.skipNewline (h.opens _).not_newline ?_))
  refine .bind (h.reads fuel _ (by omega) (by decide : mark ")" ∈ ends)) ?_
  rintro _ rfl
  exact .skipNewline (by rintro ⟨⟩) (.expect rfl (.pure rfl))

/-- An operand with arguments behind it. -/
theorem call {args : List Expr} {as : List Piece} (h : ReadableOperand ps e)
    (first : ∀ tail, (front (as ++ mark ")" :: tail)).1 ≠ .newline) (ha : ReadableList as args) :
    ReadableOperand (ps ++ mark "(" :: (as ++ [mark ")"])) (.call e args) := by
  intro k fuel mid after P hf hk
  simp only [List.length_append, List.length_cons, List.length_nil] at hf
  simp only [List.append_assoc, List.cons_append, List.nil_append]
  refine h (8 * as.length + k + 9) fuel _ after P (by omega) fun fuel' hf' => ?_
  match fuel' with
  | fuel' + 1 =>
      unfold suffixes
      refine .eat_true rfl (.skipNewline (first mid) ?_)
      refine .bind (ha fuel' ")" mid (by omega) (by decide) (by decide) (by decide)) ?_
      rintro _ rfl
      exact hk fuel' (by omega)

/-- An operand with brackets behind it. -/
theorem subscript {bs : List Piece} {e' : Expr} (h : ReadableOperand ps e)
    (hb : ∀ fuel tail, 8 * bs.length + 1 ≤ fuel →
      Reads (subscript fuel e) (bs ++ mark "]" :: tail) tail (· = e')) :
    ReadableOperand (ps ++ mark "[" :: (bs ++ [mark "]"])) e' := by
  intro k fuel mid after P hf hk
  simp only [List.length_append, List.length_cons, List.length_nil] at hf
  simp only [List.append_assoc, List.cons_append, List.nil_append]
  refine h (8 * bs.length + k + 2) fuel _ after P (by omega) fun fuel' hf' => ?_
  match fuel' with
  | fuel' + 1 =>
      unfold suffixes
      refine .eat_false rfl (.eat_false rfl (.eat_true rfl ?_))
      refine .bind (hb fuel' mid (by omega)) ?_
      rintro _ rfl
      exact hk fuel' (by omega)

theorem index {is : List Piece} {index : Expr} (h : ReadableOperand ps e)
    (hs : Spells dollar is index) (hi : Readable is index) :
    ReadableOperand (ps ++ mark "[" :: (is ++ [mark "]"])) (.index e index) := by
  refine h.subscript fun fuel tail hf => ?_
  match fuel with
  | fuel + 1 =>
      unfold Parser.subscript
      refine .atLexeme_false ((hs.opens _).not_closer ":" (by decide)) ?_
      refine .of_false Bool.false_ne_true ?_
      refine .bind (hi fuel 0 _ (by omega) (by omega) (by decide : mark "]" ∈ ends)) ?_
      rintro _ rfl
      exact .eat_false rfl (.expect rfl (.pure rfl))

theorem slice {as bs : List Piece} {start stop : Expr} (h : ReadableOperand ps e)
    (hstart : ReadableBound as start) (hstop : ReadableBound bs stop) :
    ReadableOperand (ps ++ mark "[" :: (as ++ mark ":" :: (bs ++ [mark "]"])))
      (.slice e start stop) := by
  have bounds : as ++ mark ":" :: (bs ++ [mark "]"]) = (as ++ mark ":" :: bs) ++ [mark "]"] := by
    simp
  rw [bounds]
  refine h.subscript fun fuel tail hf => ?_
  simp only [List.length_append, List.length_cons] at hf
  match fuel with
  | fuel + 1 =>
      unfold Parser.subscript
      simp only [List.append_assoc, List.cons_append]
      refine hstart fuel _ _ _ _ _ (by omega) (by decide) (by decide) (.eat_true rfl ?_)
      refine hstop fuel _ _ _ _ _ (by omega) (by decide) (by decide) ?_
      exact .expect rfl (.pure rfl)

theorem map {es : List (Expr × Expr)} (hs : SpellsEntries dollar ps es)
    (h : ReadableEntries ps es) :
    ReadableOperand (mark "\x7b" :: (ps ++ [mark "\x7d"])) (.map es) := by
  intro k fuel mid after P hf hk
  simp only [List.length_append, List.length_cons, List.length_nil] at hf
  obtain ⟨fuel, rfl⟩ : ∃ f, fuel = f + 2 := ⟨fuel - 2, by omega⟩
  refine reads_operand (by omega) (fun _ => rfl) ?_ hk
  unfold term
  simp only [List.cons_append, List.append_assoc, List.nil_append]
  refine reads_no_atom rfl ?_
  refine .eat_false rfl (.eat_false rfl (.eat_true rfl (.skipNewline ?_ ?_)))
  · exact hs.not_newline _ mid
  · refine .bind (h fuel mid (by omega)) ?_
    rintro _ rfl
    exact .pure rfl

theorem list (hs : SpellsList dollar ps es) (h : ReadableList ps es) :
    ReadableOperand (mark "[" :: (ps ++ [mark "]"])) (.list es) := by
  intro k fuel mid after P hf hk
  simp only [List.length_append, List.length_cons, List.length_nil] at hf
  obtain ⟨fuel, rfl⟩ : ∃ f, fuel = f + 2 := ⟨fuel - 2, by omega⟩
  refine reads_operand (by omega) (fun _ => rfl) ?_ hk
  unfold term
  simp only [List.cons_append, List.append_assoc, List.nil_append]
  refine reads_no_atom rfl (.eat_false rfl (.eat_true rfl (.skipNewline ?_ ?_)))
  · exact hs.not_newline _ mid
  · refine .bind (h fuel "]" mid (by omega) (by decide) (by decide) (by decide)) ?_
    rintro _ rfl
    exact .pure rfl

/-- An operand is an expression in front of what goes on with neither. -/
theorem expression (h : ReadableOperand ps e) (some : ps ≠ []) (hf : 8 * ps.length ≤ fuel)
    (ht : (front tail).EndsTerm) (hc : ∀ line, Connective.ofToken? ((front tail).at line) = none) :
    Reads (expression fuel least) (ps ++ tail) tail (· = e) := by
  have pieces := List.length_pos_iff.mpr some
  obtain ⟨fuel, rfl⟩ : ∃ f, fuel = f + 1 := ⟨fuel - 1, by omega⟩
  unfold Parser.expression
  refine .bind (h.ended (by omega) ht) ?_
  rintro _ rfl
  exact reads_climb_end (by omega) hc

end ReadableOperand

/-! ## Expressions -/

/-- An operand by itself. -/
theorem reads_expression (hs : SpellsOperand dollar ps e) (h : ReadableOperand ps e)
    (hf : 8 * ps.length ≤ fuel) (ht : front tail ∈ ends) :
    Reads (expression fuel least) (ps ++ tail) tail (· = e) := by
  refine h.expression ?_ hf (endsTerm_of_ends ht) (connective_of_ends ht)
  rintro rfl
  exact (hs.opens []).not_eof rfl

namespace Readable

theorem unary (op : UnaryOp) (h : ReadableOperand ps e) :
    Readable (mark op.spelling :: ps) (.unary op e) := by
  intro fuel least tail hf _ ht
  rw [List.length_cons] at hf
  obtain ⟨fuel, rfl⟩ : ∃ f, fuel = f + 2 := ⟨fuel - 2, by omega⟩
  have read : Reads (Parser.operand (fuel + 1)) (mark op.spelling :: ps ++ tail) tail
      (· = .unary op e) := by
    unfold Parser.operand
    refine .peek fun line => ?_
    rw [List.cons_append, front, List.headD_cons, unary_spelling]
    refine .advance fun _ => .bind (h.ended (by omega) (endsTerm_of_ends ht)) ?_
    rintro _ rfl
    exact .pure rfl
  unfold expression
  refine .bind read ?_
  rintro _ rfl
  exact reads_climb_end (by omega) (connective_of_ends ht)

/-- Operands with a connective between them. -/
theorem connective {c : Connective} (hc : c ∈ Connective.all) {lhs rhs : Expr}
    {ls rs : List Piece} (hl : ReadableOperand ls lhs)
    (hr : ∀ fuel tail, 8 * rs.length ≤ fuel → front tail ∈ ends →
      Reads (expression fuel c.rightPrecedence) (rs ++ tail) tail (· = rhs))
    (target : c.isAssign = true → lhs.isAssignable = true) :
    Readable (ls ++ mark c.spelling :: rs) (c.join lhs rhs) := by
  intro fuel least tail hf hleast ht
  simp only [List.length_append, List.length_cons] at hf
  obtain ⟨fuel, rfl⟩ : ∃ f, fuel = f + 3 := ⟨fuel - 3, by omega⟩
  rw [List.append_assoc, List.cons_append]
  unfold expression
  refine .bind (hl.ended (by omega) (endsTerm_spelling hc)) ?_
  rintro _ rfl
  unfold climb
  refine .peek fun line => ?_
  rw [front, List.headD_cons, connective_spelling hc]
  have loose := c.one_le_precedence
  refine .of_false (by omega) (.of_false ?_ (.advance fun _ => ?_))
  · simpa using target
  · refine .bind (hr (fuel + 1) tail (by omega) ht) ?_
    rintro _ rfl
    exact reads_climb_end (by omega) (connective_of_ends ht)

end Readable

/-! ## Lists -/

theorem ReadableBound.expr (hs : Spells dollar ps e) (h : Readable ps e) : ReadableBound ps e := by
  intro fuel text mid after P k hf hc hm hk
  refine .atLexeme_false ((hs.opens _).not_closer text hc) (.of_false Bool.false_ne_true ?_)
  refine .bind (h fuel 0 _ hf (by omega) hm) ?_
  rintro _ rfl
  exact hk

theorem ReadableBound.omitted : ReadableBound [] .omitted := by
  intro fuel text mid after P k _ _ _ hk
  refine .atLexeme_true (by simp [front, Piece.is, mark]) (.of_true rfl ?_)
  rwa [pure_bind]

namespace ReadableList

theorem nil : ReadableList [] [] := by
  intro fuel close tail hf _ _ _
  obtain ⟨fuel, rfl⟩ : ∃ f, fuel = f + 1 := ⟨fuel - 1, by omega⟩
  unfold elements
  exact .eat_true (by simp [Piece.is, mark]) (.pure rfl)

theorem one (h : Stands ps e) : ReadableList ps [e] := by
  intro fuel close tail hf hc hm comma
  obtain ⟨fuel, rfl⟩ : ∃ f, fuel = f + 1 := ⟨fuel - 1, by omega⟩
  unfold elements
  refine .eat_false ((h.opens _).not_closer close hc) ?_
  refine .bind (h.reads fuel _ (by omega) hm) ?_
  rintro _ rfl
  refine .skipNewline (by rintro ⟨⟩) (.eat_false (by simp [front, Piece.is, mark, comma]) ?_)
  exact .expect (by simp [Piece.is, mark]) (.pure rfl)

theorem cons {qs : List Piece} (h : Stands ps e)
    (first : ∀ close tail, (front (qs ++ mark close :: tail)).1 ≠ .newline)
    (hr : ReadableList qs es) : ReadableList (ps ++ mark "," :: qs) (e :: es) := by
  intro fuel close tail hf hc hm comma
  simp only [List.length_append, List.length_cons] at hf
  obtain ⟨fuel, rfl⟩ : ∃ f, fuel = f + 1 := ⟨fuel - 1, by omega⟩
  unfold elements
  simp only [List.append_assoc, List.cons_append]
  refine .eat_false ((h.opens _).not_closer close hc) ?_
  refine .bind (h.reads fuel _ (by omega) (by decide : mark "," ∈ ends)) ?_
  rintro _ rfl
  refine .skipNewline (by rintro ⟨⟩) (.eat_true rfl (.skipNewline (first _ tail) ?_))
  refine .bind (hr fuel close tail (by omega) hc hm comma) ?_
  rintro _ rfl
  exact .pure rfl

end ReadableList

namespace ReadableEntries

variable {ks vs qs : List Piece} {key value : Expr} {entries : List (Expr × Expr)}

theorem nil : ReadableEntries [] [] := by
  intro fuel tail hf
  obtain ⟨fuel, rfl⟩ : ∃ f, fuel = f + 1 := ⟨fuel - 1, by omega⟩
  unfold Parser.entries
  exact .eat_true rfl (.pure rfl)

theorem one (hs : Spells dollar ks key) (hk : Readable ks key) (hv : Readable vs value) :
    ReadableEntries (ks ++ mark ":" :: vs) [(key, value)] := by
  intro fuel tail hf
  simp only [List.length_append, List.length_cons] at hf
  obtain ⟨fuel, rfl⟩ : ∃ f, fuel = f + 1 := ⟨fuel - 1, by omega⟩
  unfold Parser.entries
  simp only [List.append_assoc, List.cons_append]
  refine .eat_false ((hs.opens _).not_closer "\x7d" (by decide)) ?_
  refine .bind (hk fuel 0 _ (by omega) (by omega) (by decide : mark ":" ∈ ends)) ?_
  rintro _ rfl
  refine .expect rfl (.bind (hv fuel 0 _ (by omega) (by omega) (by decide : mark "\x7d" ∈ ends)) ?_)
  rintro _ rfl
  exact .skipNewline (by rintro ⟨⟩) (.eat_false rfl (.expect rfl (.pure rfl)))

theorem cons (hs : Spells dollar ks key) (hk : Readable ks key) (hv : Readable vs value)
    (hrest : SpellsEntries dollar qs entries) (hr : ReadableEntries qs entries) :
    ReadableEntries (ks ++ mark ":" :: (vs ++ mark "," :: qs)) ((key, value) :: entries) := by
  intro fuel tail hf
  simp only [List.length_append, List.length_cons] at hf
  obtain ⟨fuel, rfl⟩ : ∃ f, fuel = f + 1 := ⟨fuel - 1, by omega⟩
  unfold Parser.entries
  simp only [List.append_assoc, List.cons_append]
  refine .eat_false ((hs.opens _).not_closer "\x7d" (by decide)) ?_
  refine .bind (hk fuel 0 _ (by omega) (by omega) (by decide : mark ":" ∈ ends)) ?_
  rintro _ rfl
  refine .expect rfl (.bind (hv fuel 0 _ (by omega) (by omega) (by decide : mark "," ∈ ends)) ?_)
  rintro _ rfl
  refine .skipNewline (by rintro ⟨⟩) (.eat_true rfl (.skipNewline (hrest.not_newline _ tail) ?_))
  refine .bind (hr fuel tail (by omega)) ?_
  rintro _ rfl
  exact .pure rfl

end ReadableEntries

/-! ## Every spelling is read -/

theorem Readable.stands (hs : Spells dollar ps e) (h : Readable ps e) : Stands ps e :=
  ⟨hs.opens, fun fuel _ hf ht => h fuel 0 _ (by omega) (by omega) ht⟩

mutual

theorem readable_of_spells {ps : List Piece} {e : Expr} : Spells dollar ps e → Readable ps e
  | .operand h => by
      intro fuel least tail hf _ ht
      exact reads_expression h (readableOperand_of_spells h) hf ht
  | .unary op h => .unary op (readableOperand_of_spells h)
  | .binary op hl hr => by
      refine .connective (c := .binary op) (binary_mem_all op) (readableOperand_of_spells hl)
        (fun fuel tail hf ht => ?_) (by rintro ⟨⟩)
      exact reads_expression hr (readableOperand_of_spells hr) hf ht
  | .assign op updates assignable ht hv => by
      refine .connective (c := .assign op) (assign_mem_all updates) (readableOperand_of_spells ht)
        (fun fuel tail hf ht => ?_) (fun _ => assignable)
      exact readable_of_spells hv fuel 1 tail hf le_rfl ht

theorem readableOperand_of_spells {ps : List Piece} {e : Expr} :
    SpellsOperand dollar ps e → ReadableOperand ps e
  | .group h => .group ((readable_of_spells h).stands h)
  | .ident h => .ident h
  | .number text => .number text
  | .str text => .str text
  | .call hc ha =>
      .call (readableOperand_of_spells hc) (ha.not_newline ")") (readableList_of_spells ha)
  | .index ht hi => .index (readableOperand_of_spells ht) hi (readable_of_spells hi)
  | .slice ht hstart hstop => .slice (readableOperand_of_spells ht)
      (readableBound_of_spells hstart) (readableBound_of_spells hstop)
  | .map h => .map h (readableEntries_of_spells h)
  | .list h => .list h (readableList_of_spells h)

theorem readableBound_of_spells {ps : List Piece} {e : Expr} :
    SpellsBound dollar ps e → ReadableBound ps e
  | .omitted => .omitted
  | .expr h => .expr h (readable_of_spells h)

theorem readableList_of_spells {ps : List Piece} {es : List Expr} :
    SpellsList dollar ps es → ReadableList ps es
  | .nil => .nil
  | .one h => .one ((readable_of_spells h).stands h)
  | .cons h hrest =>
      .cons ((readable_of_spells h).stands h) hrest.not_newline (readableList_of_spells hrest)

theorem readableEntries_of_spells {ps : List Piece} {es : List (Expr × Expr)} :
    SpellsEntries dollar ps es → ReadableEntries ps es
  | .nil => .nil
  | .one hk hv => .one hk (readable_of_spells hk) (readable_of_spells hv)
  | .cons hk hv hrest => .cons hk (readable_of_spells hk) (readable_of_spells hv) hrest
      (readableEntries_of_spells hrest)

end

end Parser

end ScriptLang
