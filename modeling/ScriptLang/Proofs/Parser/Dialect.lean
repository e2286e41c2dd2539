import ScriptLang.Machine.Run
import ScriptLang.Proofs.Parser.Taken
import ScriptLang.Target.Emit

/-!
# The dollar dialect

In the dollar dialect the dollar sign is a letter. In the base dialect it is a punctuation
mark that no production takes, so it stands nowhere in a program that is read, and there
is nothing that the other dialect reads in another way. What is emitted for a program and
what its run does depend on the dialect no further.
-/

namespace ScriptLang

open Lexer

/-- In the base dialect a dollar sign is a mark by itself. -/
def dollarSign : Piece := .mark "$"

namespace Lexer

theorem operator?_dollar (rest : List Char) : operator? ('$' :: rest) = none := by
  have other : ∀ op ∈ operators, op.toList.head? ≠ some '$' ∧ op.toList ≠ [] := by decide
  refine List.find?_eq_none.mpr fun op ho begins => ?_
  obtain ⟨t, ht⟩ := List.isPrefixOf_iff_prefix.mp begins
  obtain ⟨first, long⟩ := other op ho
  match hop : op.toList with
  | [] => exact long hop
  | c :: cs =>
      rw [hop] at ht first
      obtain ⟨rfl, -⟩ := List.cons.inj ht
      exact first rfl

/-- A text that goes on with a dollar sign has one among its tokens. -/
theorem dollarSign_mem (line : Nat) (rest : List Char) :
    dollarSign ∈ (tokensFrom false line ('$' :: rest)).tokens.map Token.piece := by
  have mark : lexeme false '$' rest = .item .punct 0 :=
    lexeme_eq_item_iff.mpr
      (.character (by decide) (by decide) (by decide) (by decide) (operator?_dollar rest)
        (by decide))
  rw [tokensFrom_item rfl mark]
  exact List.mem_cons_self

theorem startsWord_true {c : Char} (h : c ≠ '$') : startsWord true c = startsWord false c := by
  simp [startsWord, h]

theorem startsWord_true_of_false {c : Char} (h : startsWord false c = true) :
    startsWord true c = true := by
  simp only [startsWord, Bool.false_and, Bool.or_false] at h
  simp [startsWord, h]

theorem continuesWord_true {c : Char} (h : c ≠ '$') :
    continuesWord true c = continuesWord false c := by
  rw [continuesWord, continuesWord, startsWord_true h]

/-- A word that ends before anything but a dollar sign ends there in both dialects. -/
theorem takeWhile_continuesWord {rest : List Char}
    (h : ∀ cs, rest.drop (rest.takeWhile (continuesWord false)).length ≠ '$' :: cs) :
    rest.takeWhile (continuesWord true) = rest.takeWhile (continuesWord false) := by
  induction rest with
  | nil => rfl
  | cons c rest ih =>
      cases hc : continuesWord false c with
      | false =>
          have stops : (c :: rest).takeWhile (continuesWord false) = [] := by simp [hc]
          rw [stops] at h ⊢
          have other : c ≠ '$' := by
            rintro rfl
            exact h rest rfl
          simp [continuesWord_true other, hc]
      | true =>
          have other : c ≠ '$' := by
            rintro rfl
            cases hc
          have goes : (c :: rest).takeWhile (continuesWord false) =
              c :: rest.takeWhile (continuesWord false) := by simp [hc]
          rw [goes] at h ⊢
          rw [List.takeWhile_cons_of_pos (by rw [continuesWord_true other, hc]), ih h]

/-- A lexeme is the same in both dialects, unless it is a dollar sign or a word that
stands before one. -/
theorem lexeme_true {c : Char} {rest : List Char} {kind : Token.Kind} {more : Nat}
    (h : lexeme false c rest = .item kind more) (hc : c ≠ '$')
    (hw : kind = .word → ∀ cs, rest.drop more ≠ '$' :: cs) :
    lexeme true c rest = .item kind more := by
  rw [lexeme_eq_item_iff] at h ⊢
  cases h with
  | newline first => exact .newline first
  | quote first quote run => exact .quote first quote run
  | number first quote decimal run literal => exact .number first quote decimal run literal
  | word first quote decimal starts run =>
      subst run
      refine .word first quote decimal (startsWord_true_of_false starts) ?_
      rw [takeWhile_continuesWord (hw rfl)]
  | operator first quote decimal starts found =>
      exact .operator first quote decimal ((startsWord_true hc).trans starts) found
  | character first quote decimal starts none control =>
      exact .character first quote decimal ((startsWord_true hc).trans starts) none control

/-- Without a dollar sign among its tokens, a text is read alike in both dialects. -/
theorem tokensFrom_true (line : Nat) (cs : List Char)
    (hf : (tokensFrom false line cs).fault = none)
    (hd : dollarSign ∉ (tokensFrom false line cs).tokens.map Token.piece) :
    tokensFrom true line cs = tokensFrom false line cs := by
  fun_induction tokensFrom false line cs with
  | case1 line cs h => exact tokensFrom_nil h
  | case2 => cases hf
  | case3 line cs c rest h kind more hl slice after ih =>
      have first : c ≠ '$' := by
        rintro rfl
        apply hd
        have mark := dollarSign_mem line rest
        have start : ('$' :: rest).dropWhile isBlank = '$' :: rest := rfl
        rwa [tokensFrom_item start hl] at mark
      have later : dollarSign ∉ after.tokens.map Token.piece :=
        fun mem => hd (List.mem_cons_of_mem _ mem)
      have same : lexeme true c rest = .item kind more := by
        refine lexeme_true hl first fun _ cs hcs => later ?_
        have mark := dollarSign_mem (line + slice.count '\n') cs
        rwa [← hcs] at mark
      rw [tokensFrom_item h same, ih hf later]

end Lexer

/-- The marks of a program that is read are those of the grammar. -/
theorem inGrammar_of_parse {o : Options} {source : String} {program : List Stmt}
    (h : parse o source = .ok program) :
    (lex o.dollarIdentifiers source).fault = none ∧
      ∀ t ∈ (lex o.dollarIdentifiers source).tokens, t.InGrammar := by
  obtain ⟨start, rest, hc, hr⟩ := exists_run_of_parse h
  obtain ⟨-, tokens, -⟩ := ended_of_cursor hc
  obtain ⟨used, taken, known⟩ := Parser.Takes.program _ start program rest hr
  have eof := Parser.eof_of_program hr
  have last : rest.tokens = [rest.current] := by rw [Cursor.tokens, rest_of_program hc hr]
  rw [← tokens, taken, last]
  constructor
  · apply fault_eq_none_of_mem (t := rest.current) _ eof
    rw [← lex, ← tokens, taken, last]
    simp
  · refine List.forall_mem_append.mpr ⟨known, ?_⟩
    rintro t ht
    rw [List.mem_singleton.mp ht]
    exact Token.inGrammar_of_kind eof (by decide)

/-- No production takes a dollar sign. -/
theorem dollarSign_not_mem_of_parse {o : Options} {source : String} {program : List Stmt}
    (h : parse o source = .ok program) :
    dollarSign ∉ (lex o.dollarIdentifiers source).tokens.map Token.piece := by
  intro mem
  obtain ⟨t, ht, sign⟩ := List.mem_map.mp mem
  obtain ⟨kind, text⟩ := Prod.mk.inj sign
  have known := (inGrammar_of_parse h).2 t ht kind
  rw [text] at known
  exact absurd known (by decide)

/-! ## Runs -/

/-- The options with the dollar dialect turned on or off. -/
def Options.inDialect (o : Options) (dollar : Bool) : Options :=
  { o with dollarIdentifiers := dollar }

/-- The run of a program in another dialect. -/
def Run.inDialect (r : Run) (dollar : Bool) : Run :=
  { r with options := r.options.inDialect dollar }

namespace State

theorem apply_inDialect (r : Run) (dollar : Bool) (s : State) (name : Option String) (f : Value)
    (args : List Value) : apply (r.inDialect dollar) s name f args = apply r s name f args := by
  cases f <;> rfl

theorem resume_inDialect (r : Run) (dollar : Bool) (s : State) (v : Value) (p : Pending) :
    resume (r.inDialect dollar) s v p = resume r s v p := by
  cases p <;> rfl

/-- No step asks for the dialect. -/
theorem next_inDialect (r : Run) (dollar : Bool) (s : State) :
    s.next (r.inDialect dollar) = s.next r := by
  cases hs : s.control with
  | apply name f args =>
      rw [next, next, hs]
      exact apply_inDialect r dollar s name f args
  | value v =>
      simp only [next, hs]
      split
      · rfl
      · exact resume_inDialect ..
  | _ => simp only [next, hs]

theorem runFor_inDialect (r : Run) (dollar : Bool) (steps : Nat) (s : State) :
    runFor (r.inDialect dollar) steps s = runFor r steps s := by
  induction steps generalizing s with
  | zero => rfl
  | succ steps ih => rw [runFor, runFor, next_inDialect, ih]

end State

theorem interpret_inDialect (r : Run) (dollar : Bool) (steps : Nat) (program : List Stmt) :
    (r.inDialect dollar).interpret steps program = r.interpret steps program := by
  have start : State.initial (r.inDialect dollar).options program =
      State.initial r.options program := rfl
  rw [Run.interpret, Run.interpret, start, State.runFor_inDialect]

/-- A text that is read in the base dialect is read as the same program in the dollar
dialect, and the same is emitted for the program and done by its run. -/
theorem dollar_dialect_conservative {o : Options} {source : String} {program : List Stmt}
    (h : parse (o.inDialect false) source = .ok program) (file : String) :
    parse (o.inDialect true) source = .ok program ∧
      generate (o.inDialect true) file program = generate (o.inDialect false) file program ∧
      ∀ maxDepth refusal? steps,
        Run.interpret ⟨⟨file, o.inDialect true, maxDepth⟩, refusal?⟩ steps program =
          Run.interpret ⟨⟨file, o.inDialect false, maxDepth⟩, refusal?⟩ steps program := by
  refine ⟨?_, rfl, fun maxDepth refusal? steps => ?_⟩
  · have same : lex true source = lex false source :=
      tokensFrom_true 1 source.toList (inGrammar_of_parse h).1 (dollarSign_not_mem_of_parse h)
    rw [← h]
    exact congrArg Lexed.parse same
  · exact interpret_inDialect ⟨⟨file, o.inDialect false, maxDepth⟩, refusal?⟩ true steps program

/-- A dollar sign in a string or in a comment is no letter in either dialect. -/
theorem dollar_dialect_conservative_quoted :
    parse (Options.inDialect {} false) "x = '$y' # $z\n" =
        .ok [.expr (.assign none (.ident "x") (.str "'$y'"))] ∧
      parse (Options.inDialect {} true) "x = '$y' # $z\n" =
        .ok [.expr (.assign none (.ident "x") (.str "'$y'"))] := by
  refine (and_iff_left_of_imp fun h => (dollar_dialect_conservative h "a").1).mpr ?_
  cbv

/-- Only in the dollar dialect a name may have one. -/
example : parse { dollarIdentifiers := true } "$x = 1\n" =
      .ok [.expr (.assign none (.ident "$x") (.number "1"))] ∧
    parse {} "$x = 1\n" = .error ⟨1, "$", .expected .expression⟩ := by
  cbv

end ScriptLang
