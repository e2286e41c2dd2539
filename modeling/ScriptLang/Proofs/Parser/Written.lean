import ScriptLang.Proofs.Parser.PrintedProgram
import ScriptLang.Proofs.Token.Adjacent

/-!
# Texts of expressions

`Writes dollar text e` says that the text is a way to write the expression down: in
front of a separator it is read as pieces that spell the expression. There is one
rule for each way of putting texts together, with blanks only where they are usual,
and a text by itself on a line is a program of one statement.
-/

namespace ScriptLang

open Piece Lexer

variable {dollar : Bool} {text : String} {e : Expr} {es : List Expr}
  {entries : List (Expr × Expr)}

/-- In front of a separator the text is read as pieces of some description. -/
def WritesPieces (dollar : Bool) (text : String) (P : List Piece → Prop) : Prop :=
  ∃ ps, P ps ∧ ∀ s qs, SetOff s → LexesTo dollar s qs →
    LexesTo dollar (text.toList ++ s) (ps ++ qs)

/-- The text is a way to write the expression down. -/
def Writes (dollar : Bool) (text : String) (e : Expr) : Prop :=
  WritesPieces dollar text (Spells dollar · e)

/-- The text is a way to write the expression down as an operand. No equals sign
stands at its beginning, where an operator in front would take it. -/
def WritesOperand (dollar : Bool) (text : String) (e : Expr) : Prop :=
  WritesPieces dollar text (SpellsOperand dollar · e) ∧ ∃ c ∈ text.toList.head?, c ≠ '='

/-- The text is a way to write the expressions down, with commas between them. -/
def WritesList (dollar : Bool) (text : String) (es : List Expr) : Prop :=
  WritesPieces dollar text (SpellsList dollar · es)

/-- The text is a way to write the entries down, with commas between them. -/
def WritesEntries (dollar : Bool) (text : String) (es : List (Expr × Expr)) : Prop :=
  WritesPieces dollar text (SpellsEntries dollar · es)

/-! ## Operands -/

/-- A lexeme whose text is kept begins with no equals sign. -/
theorem head_of_lexesAs {kind : Token.Kind} (hk : keepsText kind = true)
    (h : LexesAs dollar kind text) : ∃ c ∈ text.toList.head?, c ≠ '=' := by
  obtain ⟨c, rest, ht, -, hl⟩ := (lexesAs_iff hk).mp h
  refine ⟨c, by simp [ht], ?_⟩
  rintro rfl
  have word : startsWord dollar '=' = false := by cases dollar <;> decide
  have plain : isDecimal '=' = false ∧ isControl '=' = false := by decide
  obtain rfl : kind = .punct := by
    cases hop : operator? ('=' :: rest) with
    | none => simp_all [lexeme]
    | some op => simp_all [lexeme]
  simp [keepsText] at hk

theorem WritesOperand.writes (h : WritesOperand dollar text e) : Writes dollar text e := by
  obtain ⟨⟨ps, hs, lexes⟩, -⟩ := h
  exact ⟨ps, .operand hs, lexes⟩

namespace WritesOperand

theorem ident (h : IsName dollar text) : WritesOperand dollar text (.ident text) := by
  refine ⟨⟨[word text], .ident h, fun s qs hs hq => ?_⟩, head_of_lexesAs rfl h.1⟩
  exact .piece (p := word text) (lexesBefore_of_setOff rfl h.1 hs) hq

theorem number (h : LexesAs dollar .number text) : WritesOperand dollar text (.number text) := by
  refine ⟨⟨[(.number, text)], .number text, fun s qs hs hq => ?_⟩, head_of_lexesAs rfl h⟩
  exact .piece (p := (.number, text)) (lexesBefore_of_setOff rfl h hs) hq

theorem str (h : LexesAs dollar .quote text) : WritesOperand dollar text (.str text) := by
  refine ⟨⟨[(.quote, text)], .str text, fun s qs _ hq => ?_⟩, head_of_lexesAs rfl h⟩
  exact .piece (p := (.quote, text)) (lexesBefore_quote h s) hq

theorem group (h : Writes dollar text e) : WritesOperand dollar ("(" ++ text ++ ")") e := by
  obtain ⟨ps, hs, lexes⟩ := h
  refine ⟨⟨grouped ps, .group hs, fun s qs _ hq => ?_⟩, '(', by simp, by decide⟩
  have close : LexesTo dollar (')' :: s) (mark ")" :: qs) := hq.bracket ")" (by decide)
  have inner := lexes _ _ (.cons (by decide) s) close
  have all : LexesTo dollar ('(' :: (text.toList ++ ')' :: s)) _ := inner.bracket "(" (by decide)
  simpa [grouped] using all

theorem call {args : String} (hc : WritesOperand dollar text e) (ha : WritesList dollar args es) :
    WritesOperand dollar (text ++ "(" ++ args ++ ")") (.call e es) := by
  obtain ⟨⟨cs, hc, callee⟩, c, start, first⟩ := hc
  obtain ⟨as, ha, inner⟩ := ha
  refine ⟨⟨_, .call hc ha, fun s qs _ hq => ?_⟩, c, by simp_all, first⟩
  have close : LexesTo dollar (')' :: s) (mark ")" :: qs) := hq.bracket ")" (by decide)
  have suffix : LexesTo dollar ('(' :: (args.toList ++ ')' :: s)) _ :=
    (inner _ _ (.cons (by decide) s) close).bracket "(" (by decide)
  simpa using callee _ _ (.cons (by decide) _) suffix

theorem list (h : WritesList dollar text es) :
    WritesOperand dollar ("[" ++ text ++ "]") (.list es) := by
  obtain ⟨ps, hs, lexes⟩ := h
  refine ⟨⟨_, .list hs, fun s qs _ hq => ?_⟩, '[', by simp, by decide⟩
  have close : LexesTo dollar (']' :: s) (mark "]" :: qs) := hq.bracket "]" (by decide)
  have inner := lexes _ _ (.cons (by decide) s) close
  have all : LexesTo dollar ('[' :: (text.toList ++ ']' :: s)) _ := inner.bracket "[" (by decide)
  simpa using all

theorem map (h : WritesEntries dollar text entries) :
    WritesOperand dollar ("\x7b" ++ text ++ "\x7d") (.map entries) := by
  obtain ⟨ps, hs, lexes⟩ := h
  refine ⟨⟨_, .map hs, fun s qs _ hq => ?_⟩, '\x7b', by simp, by decide⟩
  have close : LexesTo dollar ('\x7d' :: s) (mark "\x7d" :: qs) := hq.bracket "\x7d" (by decide)
  have inner := lexes _ _ (.cons (by decide) s) close
  have all : LexesTo dollar ('\x7b' :: (text.toList ++ '\x7d' :: s)) _ :=
    inner.bracket "\x7b" (by decide)
  simpa using all

end WritesOperand

/-! ## Operators -/

namespace Writes

variable {left right : String} {lhs rhs : Expr}

theorem unary (op : UnaryOp) (h : WritesOperand dollar text e) :
    Writes dollar (op.spelling ++ text) (.unary op e) := by
  obtain ⟨⟨ps, hs, lexes⟩, c, start, first⟩ := h
  refine ⟨_, .unary op hs, fun s qs hq hs => ?_⟩
  have sign : (text.toList ++ s).head? ≠ some '=' := by simp_all
  rw [String.toList_append, List.append_assoc]
  exact .piece (p := mark op.spelling) (lexesBefore_unary op sign) (lexes s qs hq hs)

/-- Operands with an operator and blanks between them. -/
theorem binary (op : BinaryOp) (hl : WritesOperand dollar left lhs)
    (hr : WritesOperand dollar right rhs) :
    Writes dollar (left ++ " " ++ op.spelling ++ " " ++ right) (.binary op lhs rhs) := by
  obtain ⟨⟨ls, hl, lexesLeft⟩, -⟩ := hl
  obtain ⟨⟨rs, hr, lexesRight⟩, -⟩ := hr
  refine ⟨_, .binary op hl hr, fun s qs hs hq => ?_⟩
  have mem : (Connective.binary op).spelling ∈ marks := spelling_mem_marks _ (binary_mem_all op)
  have operator := (lexesRight s qs hs hq).operator mem
  simpa [Connective.spelling] using lexesLeft _ _ (.cons (by decide) _) operator

theorem assign {op : Option BinaryOp} (updates : ∀ b ∈ op, BinaryOp.updates b = true)
    (assignable : lhs.isAssignable = true) (hl : WritesOperand dollar left lhs)
    (hr : Writes dollar right rhs) :
    Writes dollar (left ++ " " ++ (Connective.assign op).spelling ++ " " ++ right)
      (.assign op lhs rhs) := by
  obtain ⟨⟨ls, hl, lexesLeft⟩, -⟩ := hl
  obtain ⟨rs, hr, lexesRight⟩ := hr
  refine ⟨_, .assign op updates assignable hl hr, fun s qs hs hq => ?_⟩
  have mem := spelling_mem_marks _ (assign_mem_all updates)
  have operator := (lexesRight s qs hs hq).operator mem
  simpa using lexesLeft _ _ (.cons (by decide) _) operator

end Writes

/-! ## Lists -/

namespace WritesList

theorem nil : WritesList dollar "" [] :=
  ⟨[], .nil, fun _ _ _ h => h⟩

theorem one (h : Writes dollar text e) : WritesList dollar text [e] := by
  obtain ⟨ps, hs, lexes⟩ := h
  exact ⟨ps, .one hs, lexes⟩

theorem cons {rest : String} {e' : Expr} (h : Writes dollar text e)
    (hr : WritesList dollar rest (e' :: es)) :
    WritesList dollar (text ++ ", " ++ rest) (e :: e' :: es) := by
  obtain ⟨ps, hs, lexes⟩ := h
  obtain ⟨qs, hr, lexesRest⟩ := hr
  refine ⟨_, .cons hs hr, fun s qs hs hq => ?_⟩
  have comma : LexesTo dollar (',' :: ' ' :: (rest.toList ++ s)) _ :=
    (lexesRest s qs hs hq).blank.bracket "," (by decide)
  simpa using lexes _ _ (.cons (by decide) _) comma

end WritesList

namespace WritesEntries

variable {left right : String} {key value : Expr}

theorem nil : WritesEntries dollar "" [] :=
  ⟨[], .nil, fun _ _ _ h => h⟩

theorem one (hk : Writes dollar left key) (hv : Writes dollar right value) :
    WritesEntries dollar (left ++ ": " ++ right) [(key, value)] := by
  obtain ⟨ks, hk, lexesKey⟩ := hk
  obtain ⟨vs, hv, lexesValue⟩ := hv
  refine ⟨_, .one hk hv, fun s qs hs hq => ?_⟩
  have colon : LexesTo dollar (':' :: ' ' :: (right.toList ++ s)) _ :=
    (lexesValue s qs hs hq).blank.bracket ":" (by decide)
  simpa using lexesKey _ _ (.cons (by decide) _) colon

theorem cons {rest : String} {entry : Expr × Expr} (hk : Writes dollar left key)
    (hv : Writes dollar right value) (hr : WritesEntries dollar rest (entry :: entries)) :
    WritesEntries dollar (left ++ ": " ++ right ++ ", " ++ rest)
      ((key, value) :: entry :: entries) := by
  obtain ⟨ks, hk, lexesKey⟩ := hk
  obtain ⟨vs, hv, lexesValue⟩ := hv
  obtain ⟨rs, hr, lexesRest⟩ := hr
  refine ⟨_, .cons hk hv hr, fun s qs hs hq => ?_⟩
  have comma : LexesTo dollar (',' :: ' ' :: (rest.toList ++ s)) _ :=
    (lexesRest s qs hs hq).blank.bracket "," (by decide)
  have colon :
      LexesTo dollar (':' :: ' ' :: (right.toList ++ ',' :: ' ' :: (rest.toList ++ s))) _ :=
    (lexesValue _ _ (.cons (by decide) _) comma).blank.bracket ":" (by decide)
  simpa using lexesKey _ _ (.cons (by decide) _) colon

end WritesEntries

/-! ## Lines -/

namespace Parser

/-- A line that is a statement is a program by itself. -/
theorem reads_program_line {ps : List Piece} {s : Stmt} {fuel : Nat}
    (opens : (front (ps ++ [lineBreak])).Opens)
    (h : ∀ fuel, 8 * ps.length + 8 ≤ fuel →
      Reads (statement fuel {}) (ps ++ [lineBreak]) [lineBreak] (· = s))
    (hf : 16 * (ps ++ [lineBreak]).length + 16 ≤ fuel) :
    Reads (program fuel) (ps ++ [lineBreak]) [] (· = [s]) := by
  simp only [List.length_append, List.length_cons, List.length_nil] at hf
  obtain ⟨fuel, rfl⟩ : ∃ f, fuel = f + 2 := ⟨fuel - 2, by omega⟩
  have rest : Reads (block (fuel + 1) {}) [] [] (· = []) := by
    unfold block
    exact .atBlockEnd (.of_true rfl (.pure rfl))
  have body : Reads (block (fuel + 2) {}) (ps ++ [lineBreak]) [] (· = [s]) := by
    unfold block
    refine .atBlockEnd (.of_false (by simp [opens.endsBlock]) ?_)
    refine .bind (h _ (by omega)) ?_
    rintro _ rfl
    refine .expectNewline (.bind rest ?_)
    rintro _ rfl
    exact .pure rfl
  unfold program
  refine .skipNewline opens.not_newline (.bind body ?_)
  rintro _ rfl
  exact .peek fun _ => .of_true rfl (.pure rfl)

end Parser

/-- A text that is read as a statement, by itself on a line, is parsed to that statement. -/
theorem parse_of_line {o : Options} {s : Stmt}
    (h : WritesPieces o.dollarIdentifiers text fun ps => (front (ps ++ [lineBreak])).Opens ∧
      ∀ fuel, 8 * ps.length + 8 ≤ fuel → Parser.Reads (Parser.statement fuel {})
        (ps ++ [lineBreak]) [lineBreak] (· = s)) :
    parse o (text ++ "\n") = .ok [s] := by
  obtain ⟨ps, ⟨opens, reads⟩, lexes⟩ := h
  have lexed := lexes _ _ (.cons (by decide) []) .lineBreak 1
  have line : lex o.dollarIdentifiers (text ++ "\n") =
      tokensFrom o.dollarIdentifiers 1 (text.toList ++ ['\n']) := by simp [lex]
  rw [← line] at lexed
  obtain ⟨program, hp, rfl⟩ := parse_of_reads lexed.1 lexed.2 fun _ nesting =>
    Parser.reads_program_line opens reads nesting
  exact hp

/-- A text of an expression, by itself on a line, is parsed to that expression. -/
theorem parse_of_writes {o : Options} (h : Writes o.dollarIdentifiers text e) :
    parse o (text ++ "\n") = .ok [.expr e] := by
  obtain ⟨ps, hs, lexes⟩ := h
  exact parse_of_line ⟨ps, ⟨hs.opens _, fun fuel hf => Parser.reads_expr hs (by omega)⟩, lexes⟩

end ScriptLang
