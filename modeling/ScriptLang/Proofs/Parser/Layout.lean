import ScriptLang.Proofs.Parser.Lines
import ScriptLang.Proofs.Token.Spaced

/-!
# Layout does not matter

What a text is read as depends on its tokens only, and on their lines only as far as the
answer mentions them. Whatever else a text may have (comments, blank lines, indentation and
other blanks) can be written in any other way, or be left out where single blanks stand
between the tokens.
-/

namespace ScriptLang

/-- Both are programs that differ at most in the lines of assertions, or both refuse the
text at the same lexeme for the same cause. -/
def AnswersAlike : Except Diagnostic (List Stmt) → Except Diagnostic (List Stmt) → Prop
  | .ok program, .ok program' => Alike program program'
  | .error d, .error d' => d.near = d'.near ∧ d.cause = d'.cause
  | _, _ => False

/-- Answers that are the same without lines are alike. -/
theorem answersAlike_of_mapLines {r r' : Except Diagnostic (List Stmt)}
    (h : (r.map (mapLines fun _ => 0)).mapError (Diagnostic.mapLine fun _ => 0) =
      (r'.map (mapLines fun _ => 0)).mapError (Diagnostic.mapLine fun _ => 0)) :
    AnswersAlike r r' := by
  cases r with
  | ok program =>
      cases r' with
      | ok program' =>
          rw [AnswersAlike, Alike, withoutLines_eq, withoutLines_eq]
          exact Except.ok.inj h
      | error d => cases h
  | error d =>
      cases r' with
      | ok program => cases h
      | error d' =>
          have same := Except.error.inj h
          exact ⟨(Diagnostic.mk.inj same).2.1, (Diagnostic.mk.inj same).2.2⟩

/-- Tokens with the same pieces are the same without their lines. -/
theorem mapLines_eq_of_pieces {l l' : Lexed} (h : l.fault = none) (h' : l'.fault = none)
    (same : l'.tokens.map Token.piece = l.tokens.map Token.piece) :
    l.mapLines (fun _ => 0) = l'.mapLines fun _ => 0 := by
  have unlined (ts : List Token) : ts.map (Token.mapLine fun _ => 0) =
      (ts.map Token.piece).map fun p => ⟨p.1, p.2, 0⟩ := by
    rw [List.map_map]
    rfl
  rw [Lexed.mapLines, Lexed.mapLines, h, h', unlined, unlined, same]

/-- The tokens of a text, written with single blanks between them, are read as the same
tokens; and any two texts with the same tokens are read as programs that differ at most
in the lines of assertions, or refused at the same lexeme for the same cause. -/
theorem layout_irrelevant (o : Options) (source : String)
    (h : (lex o.dollarIdentifiers source).fault = none) :
    ((lex o.dollarIdentifiers (respaced (lex o.dollarIdentifiers source).tokens)).fault = none ∧
      (lex o.dollarIdentifiers (respaced (lex o.dollarIdentifiers source).tokens)).tokens.map
          Token.piece =
        (lex o.dollarIdentifiers source).tokens.map Token.piece) ∧
    ∀ other, (lex o.dollarIdentifiers other).fault = none →
      (lex o.dollarIdentifiers other).tokens.map Token.piece =
        (lex o.dollarIdentifiers source).tokens.map Token.piece →
      AnswersAlike (parse o source) (parse o other) := by
  refine ⟨lex_respaced h, fun other h' same => answersAlike_of_mapLines ?_⟩
  rw [parse, parse, ← Lexed.parse_mapLines, ← Lexed.parse_mapLines,
    mapLines_eq_of_pieces h h' same]

/-- A text with comments, blank lines and indentation, and the same without. -/
theorem layout_irrelevant_comments :
    ((lex false "\n# c\nif x\n\n   assert  1.y=='# d' # e\nend\n").fault = none ∧
      (lex false "\n if x \n assert 1 . y == '# d' \n end \n").fault = none ∧
      (lex false "\n if x \n assert 1 . y == '# d' \n end \n").tokens.map Token.piece =
        (lex false "\n# c\nif x\n\n   assert  1.y=='# d' # e\nend\n").tokens.map Token.piece) ∧
    AnswersAlike (parse {} "\n# c\nif x\n\n   assert  1.y=='# d' # e\nend\n")
      (parse {} "\n if x \n assert 1 . y == '# d' \n end \n") := by
  refine (and_iff_left_of_imp fun h => (layout_irrelevant {} _ h.1).2 _ h.2.1 h.2.2).mpr ?_
  cbv

-- the assertion is on another line, and nothing else is different
example : parse {} "\n# c\nif x\n\n   assert  1.y=='# d' # e\nend\n" =
      .ok [.cond (.ident "x") [.assert (.binary .eq (.index (.number "1") (.str "\"y\""))
        (.str "'# d'")) 5] .none] ∧
    parse {} "\n if x \n assert 1 . y == '# d' \n end \n" =
      .ok [.cond (.ident "x") [.assert (.binary .eq (.index (.number "1") (.str "\"y\""))
        (.str "'# d'")) 3] .none] := by
  cbv

end ScriptLang
