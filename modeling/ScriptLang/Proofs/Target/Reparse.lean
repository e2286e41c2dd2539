import ScriptLang.Target.Emit
import ScriptLang.Proofs.Parser.Written

/-!
# Emitted expressions that are expressions of the language

Where the target writes an expression as the language does, its emitted text is
read back as the same tree: an operator as the operand of another one stands in
parentheses, and everything else holds together by itself. Left out is what emission
hands to a helper, which is equality, rounding division, indexing and maps.
-/

namespace ScriptLang

open Target Piece

mutual

/-- The expression has the same form in the target: no part of it is emitted as the
call of a helper, and its names are emitted unchanged. -/
def Expr.Shared (dollar : Bool) : Expr → Prop
  | .ident name => IsName dollar name ∧ mangle name = name
  | .number text => LexesAs dollar .number text
  | .str text => LexesAs dollar .quote text
  | .unary _ operand => operand.Shared dollar
  | .binary op lhs rhs =>
    op ≠ .eq ∧ op ≠ .ne ∧ op ≠ .floorDiv ∧ lhs.Shared dollar ∧ rhs.Shared dollar
  | .assign op (.ident name) value =>
    (∀ b ∈ op, BinaryOp.updates b = true) ∧ IsName dollar name ∧ mangle name = name ∧
      value.Shared dollar
  | .call callee args => callee.Shared dollar ∧ SharedExprs dollar args
  | .list items => SharedExprs dollar items
  | .omitted | .assign .. | .index .. | .slice .. | .map _ => False

/-- All expressions have the same form in the target. -/
def SharedExprs (dollar : Bool) : List Expr → Prop
  | [] => True
  | e :: rest => e.Shared dollar ∧ SharedExprs dollar rest

end

namespace Target

variable {dollar : Bool} {e : Expr}

/-- The emitted text of the expression writes it down, as an operand unless it is an
operation. -/
def WritesCode (dollar : Bool) (e : Expr) : Prop :=
  if e.isOperation then Writes dollar (code e).text e else WritesOperand dollar (code e).text e

theorem WritesCode.bare (h : WritesCode dollar e) : Writes dollar (code e).text e := by
  unfold WritesCode at h
  split at h
  next => exact h
  next => exact h.writes

theorem WritesCode.operand (h : WritesCode dollar e) :
    WritesOperand dollar (e.asOperand (code e)).text e := by
  unfold WritesCode at h
  unfold Expr.asOperand
  split at h
  next op =>
    rw [if_pos op]
    exact .group h
  next op =>
    rw [if_neg op]
    exact h

/-- Apart from the three operators that are handed to helpers, an operator is emitted
between its operands. -/
theorem binaryCode_of_ne {op : BinaryOp} (eq : op ≠ .eq) (ne : op ≠ .ne) (div : op ≠ .floorDiv)
    (l r lhs rhs : Code) : binaryCode op l r lhs rhs = .binary op lhs rhs := by
  cases op <;> first | rfl | contradiction

mutual

theorem writes_code : ∀ e : Expr, e.Shared dollar → WritesCode dollar e
  | .ident name, h => by
      simp only [WritesCode, code, Code.text, h.2]
      exact .ident h.1
  | .number text, h => .number h
  | .str text, h => .str h
  | .unary op operand, h => .unary op (writes_code operand h).operand
  | .binary op lhs rhs, h => by
      obtain ⟨eq, ne, div, hl, hr⟩ := h
      simp only [WritesCode, code, binaryCode_of_ne eq ne div]
      exact .binary op (writes_code lhs hl).operand (writes_code rhs hr).operand
  | .assign op (.ident name) value, h => by
      obtain ⟨updates, isName, plain, hv⟩ := h
      have target : WritesOperand dollar (code (.ident name)).text (.ident name) := by
        simp only [code, Code.text, plain]
        exact .ident isName
      have write := Writes.assign updates rfl target (writes_code value hv).bare
      cases op with
      | none => exact write
      | some op => exact write
  | .call callee args, h =>
      WritesOperand.call (writes_code callee h.1).operand (writes_codes args h.2)
  | .list items, h => WritesOperand.list (writes_codes items h)

theorem writes_codes : ∀ es : List Expr, SharedExprs dollar es →
    WritesList dollar (String.intercalate ", " (textsOf (codes es))) es
  | [], _ => by
      simp only [codes, textsOf, String.intercalate_nil]
      exact .nil
  | [e], h => by
      simp only [codes, textsOf, String.intercalate_singleton]
      exact .one (writes_code e h.1).bare
  | e :: e' :: rest, h => by
      have write := WritesList.cons (writes_code e h.1).bare (writes_codes (e' :: rest) h.2)
      simpa only [codes, textsOf, String.intercalate_cons_cons] using write

end

/-! ## Lines -/

theorem blockLines_append (depth : Nat) (a b : List Item) :
    blockLines depth (a ++ b) = blockLines depth a ++ blockLines depth b := by
  induction a with
  | nil => rfl
  | cons item rest ih => simp [blockLines, ih]

/-- Declarations take a line each. -/
theorem render_declare_append (names : List String) (rest : List Item) :
    render (names.map .declare ++ rest) =
      String.join (names.map fun name => "let " ++ name ++ " = null;\n") ++ render rest := by
  have lines : (blockLines 0 (names.map .declare)).map Line.render =
      names.map fun name => "let " ++ name ++ " = null;\n" := by
    induction names with
    | nil => rfl
    | cons name names ih =>
        simp [blockLines, Item.lines, Line.render, ih, String.append_assoc]
  rw [render, blockLines_append, List.map_append, String.join_append, lines, render]

end Target

/-- The emitted text of an expression statement that has the same form in the target,
without the semicolon behind it, is read as the same tree. -/
theorem generate_reparses (o : Options) (file : String) (e : Expr)
    (h : e.Shared o.dollarIdentifiers) :
    generate o file [.expr e] =
        String.join ((locals [] [.expr e]).map fun name => "let " ++ mangle name ++ " = null;\n") ++
          (code e).text ++ ";\n" ∧
      parse o ((code e).text ++ "\n") = .ok [.expr e] := by
  refine ⟨?_, parse_of_writes (writes_code e h).bare⟩
  have items : emitProgram ⟨file, o.implicitReturn⟩ [.expr e] =
      ((locals [] [.expr e]).map mangle).map .declare ++ [.run (code e)] := by
    simp [emitProgram, prologue, emitBody, Function.comp_def]
    rfl
  have line : render [.run (code e)] = (code e).text ++ ";\n" := by
    simp [render, blockLines, Item.lines, Line.render, String.append_assoc]
  rw [generate, items, render_declare_append, line, List.map_map, String.append_assoc]
  rfl

/-- The expression `x = y += (a << 2) ** f(-(!x), ["s"])`. -/
def nestedOperators : Expr :=
  .assign none (.ident "x") (.assign (some .add) (.ident "y")
    (.binary .pow (.binary .shl (.ident "a") (.number "2"))
      (.call (.ident "f") [.unary .neg (.unary .not (.ident "x")), .list [.str "\"s\""]])))

theorem generate_reparses_nestedOperators : nestedOperators.Shared false ∧
    generate {} "a" [.expr nestedOperators] =
        String.join ((locals [] [.expr nestedOperators]).map fun name =>
          "let " ++ mangle name ++ " = null;\n") ++ (code nestedOperators).text ++ ";\n" ∧
      parse {} ((code nestedOperators).text ++ "\n") = .ok [.expr nestedOperators] := by
  have word : ∀ name ∈ ["x", "y", "a", "f"], IsName false name ∧ mangle name = name := by
    intro name hn
    have alone : ∀ name ∈ ["x", "y", "a", "f"], alone false (.word, name) = true ∧
        Token.isKeyword name = false ∧ mangle name = name := by decide
    obtain ⟨ha, hk, hm⟩ := alone name hn
    exact ⟨⟨lexesAs_of_alone rfl ha, hk⟩, hm⟩
  have two : LexesAs false .number "2" := lexesAs_of_alone rfl (by decide)
  have s : LexesAs false .quote "\"s\"" := lexesAs_of_alone rfl (by decide)
  have x := word "x" (by decide)
  have y := word "y" (by decide)
  refine (and_iff_left_of_imp (generate_reparses {} "a" _)).mpr ?_
  refine ⟨by simp, x.1, x.2, by decide, y.1, y.2, by decide, by decide, by decide, ?_, ?_⟩
  · exact ⟨by decide, by decide, by decide, word "a" (by decide), two⟩
  · exact ⟨word "f" (by decide), x, ⟨s, trivial⟩, trivial⟩

-- what goes back in
example : (code nestedOperators).text = "x = y += (a << 2) ** f(-(!x), [\"s\"])" := by decide

end ScriptLang
