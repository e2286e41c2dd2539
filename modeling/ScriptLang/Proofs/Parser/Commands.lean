import ScriptLang.Proofs.Parser.ExpressionText

/-!
# Commands and labels

A statement may be a function with its arguments behind it, or a value that is handed to a named
function behind a colon, with further arguments or without. Both are calls, and the statements
are the same as those with the calls written out. The arguments of a command begin with a token
that cannot go on with the function; behind a label they begin like any expression.
-/

namespace ScriptLang

open Piece Lexer

variable {dollar : Bool} {ps qs tail : List Piece} {e : Expr} {es : List Expr} {fuel : Nat}

/-- The token begins an argument, and it does not go on with an expression before it. -/
def Token.BeginsArguments (t : Token) : Prop :=
  t.kind = .number ∨ t.kind = .quote ∨ t.isName = true ∨
    t.kind = .punct ∧ t.text ∈ ["\x7b", "!", "~"]

/-- The pieces are read as expressions with commas between them. -/
inductive ReadsList : List Piece → List Expr → Prop where
  | one {ps : List Piece} {e : Expr} : ReadsAs ps e → ReadsList ps [e]
  | cons {ps qs : List Piece} {e : Expr} {es : List Expr} :
      ReadsAs ps e → ReadsList qs es → ReadsList (ps ++ mark "," :: qs) (e :: es)

/-- The text is the statement wherever it is a line: it is a program by itself, and in every place
of a program it is read as the statement, whatever stands on the lines behind it. -/
structure IsLine (o : Options) (text : String) (s : Stmt) : Prop where
  program : parse o (text ++ "\n") = .ok [s]
  anywhere : WritesPieces o.dollarIdentifiers text fun ps =>
    ∀ place fuel tail, 8 * ps.length + 8 ≤ fuel → Parser.Reads (Parser.statement fuel place)
      (ps ++ lineBreak :: tail) (lineBreak :: tail) (· = s)

/-! ## Pieces of expressions -/

theorem endsExpression_lineBreak : lineBreak.EndsExpression :=
  endsExpression_of_ends (by decide)

theorem endsExpression_comma : (mark ",").EndsExpression := endsExpression_of_ends (by decide)

theorem endsExpression_colon : (mark ":").EndsExpression := endsExpression_of_ends (by decide)

theorem Piece.Opens.ne_nil (h : (front ps).Opens) : ps ≠ [] := by
  rintro rfl
  exact h.not_eof rfl

theorem front_append (some : ps ≠ []) (tail : List Piece) : front (ps ++ tail) = front ps := by
  obtain ⟨p, rest, rfl⟩ := List.exists_cons_of_ne_nil some
  rfl

theorem endsExpression_of_beginsArguments {t : Token} (genuine : t.Genuine dollar)
    (begins : t.BeginsArguments) : t.EndsExpression := by
  obtain ⟨kind, text, line⟩ := t
  rcases begins with rfl | rfl | name | ⟨rfl, mem⟩
  · exact ⟨rfl, fun _ _ => rfl⟩
  · exact ⟨rfl, fun _ _ => rfl⟩
  · simp only [Token.isName, Bool.and_eq_true, decide_eq_true_eq] at name
    obtain ⟨rfl, -⟩ := name
    have plain : ∀ c ∈ ['(', '.', '['], continuesWord dollar c = false :=
      forall_mem_of_all (by cases dollar <;> decide)
    have letters := continuesWord_of_lexesAs (genuine rfl)
    have other (c : Char) (hc : c ∈ ['(', '.', '[']) :
        Token.is ⟨.word, text, line⟩ (String.singleton c) = false := by
      have differs : text ≠ String.singleton c := by
        rintro rfl
        exact Bool.false_ne_true ((plain c hc).symm.trans (letters c (by simp)))
      simp [Token.is, differs]
    refine ⟨rfl, List.forall_mem_cons.mpr ⟨other '(' (by decide), List.forall_mem_cons.mpr
      ⟨other '.' (by decide), List.forall_mem_singleton.mpr (other '[' (by decide))⟩⟩⟩
  · have known : ∀ text ∈ ["\x7b", "!", "~"],
        Connective.ofToken? ⟨.punct, text, 0⟩ = none ∧
          ∀ mark ∈ ["(", ".", "["], Token.is ⟨.punct, text, 0⟩ mark = false := by decide
    exact known text mem

namespace ReadsAs

variable (h : ReadsAs ps e)

include h

theorem front_append (tail : List Piece) : front (ps ++ tail) = front ps :=
  ScriptLang.front_append h.opens.ne_nil tail

theorem stands : Parser.Stands ps e where
  opens tail := by
    rw [h.front_append]
    exact h.opens
  reads fuel tail hf ht := h.reads fuel tail hf (endsExpression_of_ends ht)

end ReadsAs

theorem Parser.ReadableOperand.readsAs (h : ReadableOperand ps e) (opens : (front ps).Opens)
    (starts : ((front ps).at 0).startsArgument = true) : ReadsAs ps e :=
  ⟨opens, starts, fun _ _ hf ht =>
    h.expression opens.ne_nil (by omega) ht.endsTerm ht.ofToken?⟩

namespace ReadsList

variable (h : ReadsList ps es)

include h

theorem opens : (front ps).Opens := by
  cases h with
  | one h => exact h.opens
  | cons h => rw [h.front_append]; exact h.opens

theorem starts : ((front ps).at 0).startsArgument = true := by
  cases h with
  | one h => exact h.starts
  | cons h => rw [h.front_append]; exact h.starts

theorem front_append (tail : List Piece) : front (ps ++ tail) = front ps :=
  ScriptLang.front_append h.opens.ne_nil tail

theorem starts_append (tail : List Piece) (line : Nat) :
    ((front (ps ++ tail)).at line).startsArgument = true := by
  rw [h.front_append]
  exact h.starts

theorem not_newline (close : String) (tail : List Piece) :
    (front (ps ++ mark close :: tail)).1 ≠ .newline := by
  rw [h.front_append]
  exact h.opens.not_newline

/-- The loop that ends at a closing mark. -/
theorem elements : Parser.ReadableList ps es := by
  induction h with
  | one h => exact .one h.stands
  | cons h hr ih => exact .cons h.stands hr.not_newline ih

/-- The loop that ends where no comma follows. -/
theorem arguments (hf : 8 * ps.length + 4 ≤ fuel)
    (stop : (front tail).EndsExpression) (comma : (front tail).is "," = false) :
    Parser.Reads (Parser.arguments fuel) (ps ++ tail) tail (· = es) := by
  induction h generalizing fuel with
  | one h =>
      obtain ⟨fuel, rfl⟩ : ∃ f, fuel = f + 1 := ⟨fuel - 1, by omega⟩
      unfold Parser.arguments
      refine .bind (h.reads fuel _ (by omega) stop) ?_
      rintro _ rfl
      exact .eat_false comma (.pure rfl)
  | @cons ps qs e es h hr ih =>
      simp only [List.length_append, List.length_cons] at hf
      obtain ⟨fuel, rfl⟩ : ∃ f, fuel = f + 1 := ⟨fuel - 1, by omega⟩
      rw [List.append_assoc, List.cons_append]
      unfold Parser.arguments
      refine .bind (h.reads fuel _ (by omega) endsExpression_comma) ?_
      rintro _ rfl
      refine .eat_true rfl (.bind (ih (by omega)) ?_)
      rintro _ rfl
      exact .pure rfl

end ReadsList

/-! ## Statements -/

/-- The pieces are read as the statement up to the end of the line, in every place. -/
structure ReadsLine (ps : List Piece) (s : Stmt) : Prop where
  opens : (front ps).Opens
  reads : ∀ place fuel tail, 8 * ps.length + 8 ≤ fuel → Parser.Reads (Parser.statement fuel place)
    (ps ++ lineBreak :: tail) (lineBreak :: tail) (· = s)

theorem readsLine_of_expressionStatement {s : Stmt} (opens : (front ps).Opens)
    (h : ∀ fuel tail, 8 * ps.length + 7 ≤ fuel → Parser.Reads (Parser.expressionStatement fuel)
      (ps ++ lineBreak :: tail) (lineBreak :: tail) (· = s)) : ReadsLine ps s := by
  refine ⟨opens, fun place fuel tail hf => ?_⟩
  obtain ⟨fuel, rfl⟩ : ∃ f, fuel = f + 1 := ⟨fuel - 1, by omega⟩
  refine Parser.reads_statement ?_ (h fuel tail (by omega))
  rwa [front_append opens.ne_nil]

theorem ReadsAs.line (h : ReadsAs ps e) : ReadsLine ps (.expr e) :=
  readsLine_of_expressionStatement h.opens fun fuel tail hf =>
    Parser.reads_expressionStatement (h.reads fuel _ (by omega) endsExpression_lineBreak)

/-- A function with arguments behind it. -/
theorem ReadsAs.command (h : ReadsAs ps e) (ha : ReadsList qs es)
    (stop : (front qs).EndsExpression) : ReadsLine (ps ++ qs) (.expr (.call e es)) := by
  refine readsLine_of_expressionStatement (h.front_append _ ▸ h.opens) fun fuel tail hf => ?_
  rw [List.length_append] at hf
  rw [List.append_assoc]
  unfold Parser.expressionStatement
  refine .bind (h.reads fuel _ (by omega) (by rwa [ha.front_append])) ?_
  rintro _ rfl
  refine .eat_false ?_ (.peek fun line => .of_true (ha.starts_append _ line) ?_)
  · rw [ha.front_append]
    exact ha.opens.not_closer ":" (by decide)
  · refine .bind (ha.arguments (by omega) endsExpression_lineBreak rfl) ?_
    rintro _ rfl
    exact .pure rfl

/-- A value that is handed to a function. -/
theorem ReadsAs.labelled {f : String} (h : ReadsAs ps e) (hf : IsName dollar f) :
    ReadsLine (ps ++ [mark ":", word f]) (.expr (.call (.ident f) [e])) := by
  refine readsLine_of_expressionStatement (h.front_append _ ▸ h.opens) fun fuel tail hfuel => ?_
  rw [List.length_append] at hfuel
  rw [List.append_assoc]
  unfold Parser.expressionStatement
  refine .bind (h.reads fuel _ (by omega) endsExpression_colon) ?_
  rintro _ rfl
  refine .eat_true rfl (.name hf.2 (.peek fun line => .of_false Bool.false_ne_true ?_))
  exact .pure rfl

/-- A value that is handed to a function with further arguments. -/
theorem ReadsAs.labelled_arguments {f : String} (h : ReadsAs ps e) (hf : IsName dollar f)
    (ha : ReadsList qs es) :
    ReadsLine (ps ++ mark ":" :: word f :: qs) (.expr (.call (.ident f) (e :: es))) := by
  refine readsLine_of_expressionStatement (h.front_append _ ▸ h.opens) fun fuel tail hfuel => ?_
  simp only [List.length_append, List.length_cons] at hfuel
  rw [List.append_assoc]
  unfold Parser.expressionStatement
  refine .bind (h.reads fuel _ (by omega) endsExpression_colon) ?_
  rintro _ rfl
  refine .eat_true rfl (.name hf.2 (.peek fun line =>
    .of_true (ha.starts_append (lineBreak :: tail) line) ?_))
  refine .bind (ha.arguments (by omega) endsExpression_lineBreak rfl) ?_
  rintro _ rfl
  exact .pure rfl

/-! ## Calls -/

theorem ReadsAs.grouped (h : ReadsAs ps e) : ReadsAs (grouped ps) e :=
  (Parser.ReadableOperand.group h.stands).readsAs (opens_mark (by decide)) rfl

/-- A call of an expression in parentheses. -/
theorem ReadsAs.call_grouped (h : ReadsAs ps e) (ha : ReadsList qs es) :
    ReadsAs (ScriptLang.grouped ps ++ mark "(" :: (qs ++ [mark ")"])) (.call e es) :=
  ((Parser.ReadableOperand.group h.stands).call (ha.not_newline ")") ha.elements).readsAs
    (opens_mark (by decide)) rfl

/-- A call of a function by its name. -/
theorem ReadsList.call_named {f : String} (hf : IsName dollar f) (ha : ReadsList ps es) :
    ReadsAs (word f :: mark "(" :: (ps ++ [mark ")"])) (.call (.ident f) es) := by
  refine ((Parser.ReadableOperand.ident hf).call (ha.not_newline ")") ha.elements).readsAs
    (opens_name hf) ?_
  simp [front, Token.startsArgument, Piece.at, word, hf.2]

/-! ## Texts -/

variable {o : Options} {text gap f : String} {s : Stmt} {es : List Expr}

theorem IsLine.of_writes (h : WritesPieces o.dollarIdentifiers text (ReadsLine · s)) :
    IsLine o text s := by
  obtain ⟨ps, reads, lexes⟩ := h
  refine ⟨parse_of_line ⟨ps, ⟨?_, fun fuel hf => reads.reads {} fuel [] hf⟩, lexes⟩,
    ps, reads.reads, lexes⟩
  rw [front_append reads.opens.ne_nil]
  exact reads.opens

theorem mem_separators_of_isBlank {c : Char} (h : isBlank c = true) : c ∈ separators := by
  simp only [isBlank, Bool.or_eq_true, beq_iff_eq] at h
  rcases h with ((rfl | rfl) | rfl) | rfl <;> decide

/-- Blanks set off what stands behind them. -/
theorem setOff_blanks (some : gap ≠ "") (blank : ∀ c ∈ gap.toList, isBlank c = true)
    (s : List Char) : SetOff (gap.toList ++ s) := by
  cases chars : gap.toList with
  | nil => exact absurd (String.toList_eq_nil_iff.mp chars) some
  | cons c rest =>
      exact .cons (mem_separators_of_isBlank (blank c (by rw [chars]; exact List.mem_cons_self))) _

/-- There may be blanks before a separator. -/
theorem setOff_gap {s : List Char} (blank : ∀ c ∈ gap.toList, isBlank c = true) (hs : SetOff s) :
    SetOff (gap.toList ++ s) := by
  by_cases none : gap = ""
  · rwa [none]
  · exact setOff_blanks none blank s

theorem lexesTo_name {s : List Char} {qs : List Piece} (hf : IsName dollar f) (hs : SetOff s)
    (h : LexesTo dollar s qs) : LexesTo dollar (f.toList ++ s) (word f :: qs) :=
  .piece (p := word f) (lexesBefore_of_setOff rfl hf.1 hs) h

/-- Expression texts with commas between them. -/
theorem writes_arguments {first : String} {more : List String}
    (h : List.Forall₂ (IsExpression dollar) (first :: more) es) :
    WritesPieces dollar (",".intercalate (first :: more)) fun ps => ReadsList ps es ∧
      front ps = front ((lex dollar first).tokens.map Token.piece) := by
  induction more generalizing first es with
  | nil =>
      obtain ⟨e, _, he, ⟨⟩, rfl⟩ := List.forall₂_cons_left_iff.mp h
      obtain ⟨ps, ⟨reads, pieces⟩, lexes⟩ := he.writes
      rw [String.intercalate_singleton]
      exact ⟨ps, ⟨.one reads, by rw [pieces, reads.front_append]⟩, lexes⟩
  | cons second more ih =>
      obtain ⟨e, es, he, hes, rfl⟩ := List.forall₂_cons_left_iff.mp h
      obtain ⟨ps, ⟨reads, pieces⟩, lexes⟩ := he.writes
      obtain ⟨qs, ⟨others, -⟩, lexes'⟩ := ih hes
      refine ⟨_, ⟨.cons reads others, by rw [pieces, reads.front_append, reads.front_append]⟩, ?_⟩
      intro s rs hs hr
      have comma : LexesTo dollar (',' :: ((",".intercalate (second :: more)).toList ++ s)) _ :=
        (lexes' s rs hs hr).bracket "," (by decide)
      simpa [String.intercalate_cons_cons] using lexes _ _ (.cons (by decide) _) comma

section Forms

variable {first : String} {more : List String} {left right : String}
  (he : IsExpression dollar text e) (ha : List.Forall₂ (IsExpression dollar) (first :: more) es)
  (hf : IsName dollar f) (hgap : gap ≠ "") (blank : ∀ c ∈ gap.toList, isBlank c = true)
  (hleft : ∀ c ∈ left.toList, isBlank c = true) (hright : ∀ c ∈ right.toList, isBlank c = true)

include he ha hgap blank in
theorem writes_command
    (begins : ∃ t ∈ (lex dollar first).tokens.head?, t.BeginsArguments) :
    WritesPieces dollar (text ++ gap ++ ",".intercalate (first :: more))
      (ReadsLine · (.expr (.call e es))) := by
  obtain ⟨ps, ⟨reads, -⟩, lexes⟩ := he.writes
  obtain ⟨qs, ⟨args, start⟩, lexes'⟩ := writes_arguments ha
  have stop : (front qs).EndsExpression := by
    obtain ⟨t, ht, begins⟩ := begins
    obtain ⟨rest, tokens⟩ := List.head?_eq_some_iff.mp ht
    rw [start, tokens]
    have genuine : t.Genuine dollar :=
      lexesAs_of_mem (by rw [← lex, tokens]; exact List.mem_cons_self)
    exact endsExpression_of_beginsArguments genuine begins
  refine ⟨_, reads.command args stop, fun s rs hs hr => ?_⟩
  simpa using lexes _ _ (setOff_blanks hgap blank _) ((lexes' s rs hs hr).gap blank)

include he ha in
theorem writes_call :
    WritesPieces dollar ("(" ++ text ++ ")(" ++ ",".intercalate (first :: more) ++ ")")
      (ReadsLine · (.expr (.call e es))) := by
  obtain ⟨ps, ⟨reads, -⟩, lexes⟩ := he.writes
  obtain ⟨qs, ⟨args, -⟩, lexes'⟩ := writes_arguments ha
  refine ⟨_, (reads.call_grouped args).line, fun s rs hs hr => ?_⟩
  have close : LexesTo dollar (')' :: s) (mark ")" :: rs) := hr.bracket ")" (by decide)
  have inner := lexes' _ _ (.cons (by decide) s) close
  have behind : LexesTo dollar (')' :: '(' :: _) _ :=
    (inner.bracket "(" (by decide)).bracket ")" (by decide)
  have whole : LexesTo dollar ('(' :: _) _ :=
    (lexes _ _ (.cons (by decide) _) behind).bracket "(" (by decide)
  simpa [grouped] using whole

include he hf hleft hright in
/-- What stands before the arguments of a labelled statement. -/
theorem writes_label : WritesPieces dollar (text ++ left ++ ":" ++ right ++ f) fun rs =>
    ∃ ps, ReadsAs ps e ∧ rs = ps ++ [mark ":", word f] := by
  obtain ⟨ps, ⟨reads, -⟩, lexes⟩ := he.writes
  refine ⟨_, ⟨ps, reads, rfl⟩, fun s rs hs hr => ?_⟩
  have named : LexesTo dollar (':' :: (right.toList ++ (f.toList ++ s))) _ :=
    ((lexesTo_name hf hs hr).gap hright).bracket ":" (by decide)
  simpa using lexes _ _ (setOff_gap hleft (.cons (by decide) _)) (named.gap hleft)

include he hf hleft hright in
theorem writes_labelled : WritesPieces dollar (text ++ left ++ ":" ++ right ++ f)
    (ReadsLine · (.expr (.call (.ident f) [e]))) := by
  obtain ⟨_, ⟨ps, reads, rfl⟩, lexes⟩ := writes_label he hf hleft hright
  exact ⟨_, reads.labelled hf, lexes⟩

include he ha hf hgap blank hleft hright in
theorem writes_labelled_arguments :
    WritesPieces dollar
      (text ++ left ++ ":" ++ right ++ f ++ gap ++ ",".intercalate (first :: more))
      (ReadsLine · (.expr (.call (.ident f) (e :: es)))) := by
  obtain ⟨_, ⟨ps, reads, rfl⟩, lexes⟩ := writes_label he hf hleft hright
  obtain ⟨qs, ⟨args, -⟩, lexes'⟩ := writes_arguments ha
  refine ⟨_, reads.labelled_arguments hf args, fun s rs hs hr => ?_⟩
  simpa using lexes _ _ (setOff_blanks hgap blank _) ((lexes' s rs hs hr).gap blank)

include he hf in
theorem writes_call_named : WritesPieces dollar (f ++ "((" ++ text ++ "))")
    (ReadsLine · (.expr (.call (.ident f) [e]))) := by
  obtain ⟨ps, ⟨reads, -⟩, lexes⟩ := he.writes
  refine ⟨_, ((ReadsList.one reads.grouped).call_named hf).line, fun s rs hs hr => ?_⟩
  have close : LexesTo dollar (')' :: ')' :: s) (mark ")" :: mark ")" :: rs) :=
    (hr.bracket ")" (by decide)).bracket ")" (by decide)
  have whole : LexesTo dollar ('(' :: '(' :: (text.toList ++ _)) _ :=
    ((lexes _ _ (.cons (by decide) _) close).bracket "(" (by decide)).bracket "(" (by decide)
  simpa [grouped] using lexesTo_name hf (.cons (by decide) _) whole

include he ha hf in
theorem writes_call_named_arguments :
    WritesPieces dollar (f ++ "((" ++ text ++ ")," ++ ",".intercalate (first :: more) ++ ")")
      (ReadsLine · (.expr (.call (.ident f) (e :: es)))) := by
  obtain ⟨ps, ⟨reads, -⟩, lexes⟩ := he.writes
  obtain ⟨qs, ⟨args, -⟩, lexes'⟩ := writes_arguments ha
  refine ⟨_, ((ReadsList.cons reads.grouped args).call_named hf).line, fun s rs hs hr => ?_⟩
  have close : LexesTo dollar (')' :: s) (mark ")" :: rs) := hr.bracket ")" (by decide)
  have inner := lexes' _ _ (.cons (by decide) s) close
  have behind : LexesTo dollar (')' :: ',' :: _) _ :=
    (inner.bracket "," (by decide)).bracket ")" (by decide)
  have whole : LexesTo dollar ('(' :: '(' :: (text.toList ++ _)) _ :=
    ((lexes _ _ (.cons (by decide) _) behind).bracket "(" (by decide)).bracket "(" (by decide)
  simpa [grouped] using lexesTo_name hf (.cons (by decide) _) whole

end Forms

/-- A command is a call of its function in parentheses, if its arguments begin with a token
that goes on with no expression; and what is handed to a function by its name behind a colon is
the first argument of a call of that function, in front of further arguments, if there are any,
that may begin like every expression. Texts of expressions may have blanks at their ends, and
line breaks within brackets. -/
theorem commands_are_calls (o : Options) {text f gap left right first : String}
    {more : List String} {e : Expr} {args : List Expr}
    (he : IsExpression o.dollarIdentifiers text e)
    (ha : List.Forall₂ (IsExpression o.dollarIdentifiers) (first :: more) args)
    (hf : IsName o.dollarIdentifiers f) (hgap : gap ≠ "")
    (blank : ∀ c ∈ gap.toList ++ (left.toList ++ right.toList), isBlank c = true) :
    ((∃ t ∈ (lex o.dollarIdentifiers first).tokens.head?, t.BeginsArguments) →
      IsLine o (text ++ gap ++ ",".intercalate (first :: more)) (.expr (.call e args)) ∧
      IsLine o ("(" ++ text ++ ")(" ++ ",".intercalate (first :: more) ++ ")")
        (.expr (.call e args))) ∧
    (IsLine o (text ++ left ++ ":" ++ right ++ f) (.expr (.call (.ident f) [e])) ∧
      IsLine o (f ++ "((" ++ text ++ "))") (.expr (.call (.ident f) [e]))) ∧
    (IsLine o (text ++ left ++ ":" ++ right ++ f ++ gap ++ ",".intercalate (first :: more))
        (.expr (.call (.ident f) (e :: args))) ∧
      IsLine o (f ++ "((" ++ text ++ ")," ++ ",".intercalate (first :: more) ++ ")")
        (.expr (.call (.ident f) (e :: args)))) := by
  obtain ⟨hblank, around⟩ := List.forall_mem_append.mp blank
  obtain ⟨hleft, hright⟩ := List.forall_mem_append.mp around
  refine ⟨fun begins => ⟨?_, ?_⟩, ⟨?_, ?_⟩, ?_, ?_⟩
  · exact .of_writes (writes_command he ha hgap hblank begins)
  · exact .of_writes (writes_call he ha)
  · exact .of_writes (writes_labelled he hf hleft hright)
  · exact .of_writes (writes_call_named he hf)
  · exact .of_writes (writes_labelled_arguments he ha hf hgap hblank hleft hright)
  · exact .of_writes (writes_call_named_arguments he ha hf)

/-- Only the first argument is restricted, and behind a label none is. -/
theorem commands_are_calls_member :
    (IsExpression false "m.f" (.index (.ident "m") (.str "\"f\"")) ∧
      List.Forall₂ (IsExpression false) ["1", " [2]"] [.number "1", .list [.number "2"]] ∧
      IsName false "g" ∧ " " ≠ "" ∧
      (∀ c ∈ " ".toList ++ (" ".toList ++ " ".toList), isBlank c = true) ∧
      ∃ t ∈ (lex false "1").tokens.head?, t.BeginsArguments) ∧
    (IsLine {} "m.f 1, [2]"
        (.expr (.call (.index (.ident "m") (.str "\"f\"")) [.number "1", .list [.number "2"]])) ∧
      IsLine {} "(m.f)(1, [2])"
        (.expr (.call (.index (.ident "m") (.str "\"f\"")) [.number "1", .list [.number "2"]]))) ∧
    (IsLine {} "m.f : g" (.expr (.call (.ident "g") [.index (.ident "m") (.str "\"f\"")])) ∧
      IsLine {} "g((m.f))" (.expr (.call (.ident "g") [.index (.ident "m") (.str "\"f\"")]))) ∧
    (IsLine {} "m.f : g 1, [2]" (.expr (.call (.ident "g")
        [.index (.ident "m") (.str "\"f\""), .number "1", .list [.number "2"]])) ∧
      IsLine {} "g((m.f),1, [2])" (.expr (.call (.ident "g")
        [.index (.ident "m") (.str "\"f\""), .number "1", .list [.number "2"]]))) := by
  have member : IsExpression false "m.f" (.index (.ident "m") (.str "\"f\"")) :=
    ⟨6, ⟨⟨.word, "m", 1⟩, [⟨.punct, ".", 1⟩, ⟨.word, "f", 1⟩, .endOfText 1], none⟩,
      ⟨.endOfText 1, [], none⟩, by cbv, by cbv, rfl⟩
  have one : IsExpression false "1" (.number "1") :=
    ⟨6, ⟨⟨.number, "1", 1⟩, [.endOfText 1], none⟩, ⟨.endOfText 1, [], none⟩, by cbv, by cbv, rfl⟩
  have list : IsExpression false " [2]" (.list [.number "2"]) :=
    ⟨9, ⟨⟨.punct, "[", 1⟩, [⟨.number, "2", 1⟩, ⟨.punct, "]", 1⟩, .endOfText 1], none⟩,
      ⟨.endOfText 1, [], none⟩, by cbv, by cbv, rfl⟩
  have name : IsName false "g" := ⟨lexesAs_of_alone rfl (by decide), by decide⟩
  have some : " " ≠ "" := by decide
  have blank : ∀ c ∈ " ".toList ++ (" ".toList ++ " ".toList), isBlank c = true := by simp [isBlank]
  have begins : ∃ t ∈ (lex false "1").tokens.head?, t.BeginsArguments := by
    rw [show lex false "1" = ⟨[⟨.number, "1", 1⟩, .endOfText 1], none⟩ by cbv]
    exact ⟨_, rfl, .inl rfl⟩
  have args : List.Forall₂ (IsExpression false) ["1", " [2]"] [.number "1", .list [.number "2"]] :=
    .cons one (.cons list .nil)
  obtain ⟨command, labelled⟩ := commands_are_calls {} member args name some blank
  exact ⟨⟨member, args, name, some, blank, begins⟩, command begins, labelled⟩

-- what can go on with the function does so, and only a number behind it is an argument
example : parse {} "f -1\n" = .ok [.expr (.binary .sub (.ident "f") (.number "1"))] ∧
    parse {} "f 1\n" = .ok [.expr (.call (.ident "f") [.number "1"])] := by
  cbv

end ScriptLang
