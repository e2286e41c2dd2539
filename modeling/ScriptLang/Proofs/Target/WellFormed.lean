import ScriptLang.Proofs.Target.Reading

/-!
# Well-formed emitted code

The trees that emission comes to for well-formed programs. Every name is the emitted name
of one of the program, and every literal is a number or a string. An operator that the
target does not have, or has with another meaning, never stands between two operands: the
equalities and rounding division are calls of helpers. Only what the grammar joins with an
equals sign is joined with one.
-/

namespace ScriptLang.Target

open Lexer

/-- The name under which emitted code holds some variable of the program. -/
def IsEmittedName (dollar : Bool) (name : String) : Prop :=
  ∃ x, IsName dollar x ∧ name = mangle x

/-- The operators that mean the same between two operands of the target. -/
def isShared : BinaryOp → Bool
  | .eq | .ne | .floorDiv => false
  | _ => true

mutual

/-- The expression is well formed. -/
def Code.WellFormed (dollar : Bool) : Code → Prop
  | .var name => IsEmittedName dollar name
  | .literal text => LexesAs dollar .number text ∨ LexesAs dollar .quote text
  | .undefined => True
  | .group inner => inner.WellFormed dollar
  | .unary _ operand => operand.WellFormed dollar
  | .binary op lhs rhs => isShared op = true ∧ lhs.WellFormed dollar ∧ rhs.WellFormed dollar
  | .assign op target value =>
    (∀ b ∈ op, BinaryOp.updates b = true) ∧ target.WellFormed dollar ∧ value.WellFormed dollar
  | .call callee args => callee.WellFormed dollar ∧ WellFormedCodes dollar args
  | .helper _ args => WellFormedCodes dollar args
  | .updater op value => BinaryOp.updates op = true ∧ value.WellFormed dollar
  | .array items => WellFormedCodes dollar items
  | .newMap entries => WellFormedEntryCodes dollar entries

/-- All expressions are well formed. -/
def WellFormedCodes (dollar : Bool) : List Code → Prop
  | [] => True
  | e :: rest => e.WellFormed dollar ∧ WellFormedCodes dollar rest

/-- All keys and values are well formed. -/
def WellFormedEntryCodes (dollar : Bool) : List (Code × Code) → Prop
  | [] => True
  | (key, value) :: rest =>
    key.WellFormed dollar ∧ value.WellFormed dollar ∧ WellFormedEntryCodes dollar rest

end

mutual

/-- The statement is well formed. -/
def Item.WellFormed (dollar : Bool) : Item → Prop
  | .guard name | .declare name => IsEmittedName dollar name
  | .run e | .ret e | .throw e => e.WellFormed dollar
  | .cond test body rest =>
    test.WellFormed dollar ∧ WellFormedItems dollar body ∧ rest.WellFormed dollar
  | .whileLoop _ test body | .doWhile _ body test =>
    test.WellFormed dollar ∧ WellFormedItems dollar body
  | .forOf _ header iterable body =>
    (∀ name ∈ header.names, IsEmittedName dollar name) ∧ iterable.WellFormed dollar ∧
      WellFormedItems dollar body
  | .switch subject arms => subject.WellFormed dollar ∧ WellFormedCases dollar arms
  | .function name params body | .assignFunction name params body =>
    IsEmittedName dollar name ∧ (∀ param ∈ params, IsEmittedName dollar param) ∧
      WellFormedItems dollar body
  | .jump .. => True
  | .tryCatch body name handler =>
    WellFormedItems dollar body ∧ IsEmittedName dollar name ∧ WellFormedItems dollar handler

/-- What follows the body of a condition is well formed. -/
def Branch.WellFormed (dollar : Bool) : Branch → Prop
  | .none => True
  | .otherwise body => WellFormedItems dollar body
  | .elseIf test body rest =>
    test.WellFormed dollar ∧ WellFormedItems dollar body ∧ rest.WellFormed dollar

/-- The arms of a switch are well formed. -/
def WellFormedCases (dollar : Bool) : List Case → Prop
  | [] => True
  | .mk patterns body :: rest =>
    WellFormedCodes dollar patterns ∧ WellFormedItems dollar body ∧ WellFormedCases dollar rest

/-- All statements are well formed. -/
def WellFormedItems (dollar : Bool) : List Item → Prop
  | [] => True
  | item :: rest => item.WellFormed dollar ∧ WellFormedItems dollar rest

end

variable {dollar : Bool}

theorem wellFormedItems_iff {items : List Item} :
    WellFormedItems dollar items ↔ ∀ item ∈ items, item.WellFormed dollar := by
  induction items with
  | nil => simp [WellFormedItems]
  | cons item rest ih => simp [WellFormedItems, ih]

theorem WellFormedItems.append {a b : List Item} (ha : WellFormedItems dollar a)
    (hb : WellFormedItems dollar b) : WellFormedItems dollar (a ++ b) := by
  rw [wellFormedItems_iff] at ha hb ⊢
  exact List.forall_mem_append.mpr ⟨ha, hb⟩

/-! ## Expressions -/

theorem isEmittedName {x : String} (h : IsName dollar x) : IsEmittedName dollar (mangle x) :=
  ⟨x, h, rfl⟩

theorem isEmittedName_of_mem_map {names : List String} (h : ∀ x ∈ names, IsName dollar x) :
    ∀ name ∈ names.map mangle, IsEmittedName dollar name := by
  intro name hn
  obtain ⟨x, hx, rfl⟩ := List.mem_map.mp hn
  exact isEmittedName (h x hx)

theorem wellFormed_asOperand {e : Expr} {c : Code} (h : c.WellFormed dollar) :
    (e.asOperand c).WellFormed dollar := by
  unfold Expr.asOperand
  split
  · exact h
  · exact h

theorem wellFormed_binaryCode (op : BinaryOp) {l r lhs rhs : Code} (hl : l.WellFormed dollar)
    (hr : r.WellFormed dollar) (hlhs : lhs.WellFormed dollar) (hrhs : rhs.WellFormed dollar) :
    (binaryCode op l r lhs rhs).WellFormed dollar := by
  cases op with
  | eq | ne => exact ⟨hl, hr, trivial⟩
  | floorDiv => exact ⟨⟨rfl, hlhs, hrhs⟩, trivial⟩
  | _ => exact ⟨rfl, hlhs, hrhs⟩

mutual

/-- The code of a well-formed expression is well formed. -/
theorem wellFormed_code : ∀ e : Expr, e.WellFormed dollar → (code e).WellFormed dollar
  | .ident _, h => isEmittedName h
  | .number _, h => .inl h
  | .str _, h => .inr h
  | .omitted, h => h.elim
  | .unary _ operand, h => wellFormed_asOperand (wellFormed_code operand h)
  | .binary op lhs rhs, ⟨hl, hr⟩ => by
      have left := wellFormed_code lhs hl
      have right := wellFormed_code rhs hr
      exact wellFormed_binaryCode op left right (wellFormed_asOperand left)
        (wellFormed_asOperand right)
  | .assign op (.index target index) value, ⟨_, updates, ⟨ht, hi⟩, hv⟩ => by
      have target := wellFormed_code target ht
      have index := wellFormed_code index hi
      have value := wellFormed_code value hv
      cases op with
      | none => exact ⟨target, index, value, trivial⟩
      | some op => exact ⟨target, index, ⟨updates op rfl, wellFormed_asOperand value⟩, trivial⟩
  | .assign op (.ident _) value, ⟨_, updates, ht, hv⟩ => by
      have value := wellFormed_code value hv
      cases op <;> exact ⟨updates, isEmittedName ht, value⟩
  | .call callee args, ⟨hc, ha⟩ =>
      ⟨wellFormed_asOperand (wellFormed_code callee hc), wellFormed_codes args ha⟩
  | .index target index, ⟨ht, hi⟩ =>
      ⟨wellFormed_code target ht, wellFormed_code index hi, trivial⟩
  | .slice target start stop, ⟨ht, hs, he⟩ => by
      refine ⟨wellFormed_code target ht, ?_, ?_, trivial⟩
      · rcases hs with rfl | hs
        · trivial
        · exact wellFormed_code start hs
      · rcases he with rfl | he
        · trivial
        · exact wellFormed_code stop he
  | .map entries, h => wellFormed_entryCodes entries h
  | .list items, h => wellFormed_codes items h

theorem wellFormed_codes : ∀ es : List Expr, WellFormedExprs dollar es →
    WellFormedCodes dollar (codes es)
  | [], _ => trivial
  | e :: rest, ⟨he, hr⟩ => ⟨wellFormed_code e he, wellFormed_codes rest hr⟩

theorem wellFormed_entryCodes : ∀ entries : List (Expr × Expr),
    WellFormedEntries dollar entries → WellFormedEntryCodes dollar (entryCodes entries)
  | [], _ => trivial
  | (key, value) :: rest, ⟨hk, hv, hr⟩ =>
      ⟨wellFormed_code key hk, wellFormed_code value hv, wellFormed_entryCodes rest hr⟩

end

/-! ## Statements -/

/-- The guards and declarations of a body are well formed. -/
theorem wellFormed_prologue {params : List String} {body : List Stmt} {place : Parser.Place}
    (hp : ∀ x ∈ params, IsName dollar x) (hb : WellFormedBlock dollar place body) :
    WellFormedItems dollar (prologue params body) := by
  rw [wellFormedItems_iff]
  intro item hitem
  simp only [prologue, List.mem_append, List.mem_map] at hitem
  rcases hitem with ⟨p, hmem, rfl⟩ | ⟨x, hmem, rfl⟩
  · exact isEmittedName (hp p hmem)
  · exact isEmittedName (isName_of_locals hb hmem)

theorem wellFormed_inBlock {functions others : Emission (List Item)}
    (hf : Emits functions (WellFormedItems dollar)) (ho : Emits others (WellFormedItems dollar)) :
    Emits (inBlock functions others) (WellFormedItems dollar) :=
  .bind hf fun _ ha => .bind ho fun _ hb => .pure (ha.append hb)

mutual

theorem wellFormed_emit (s : Setting) (loop : Option Nat) : ∀ (stmt : Stmt) (place : Parser.Place),
    stmt.WellFormed dollar place → Emits (emit s loop stmt) (WellFormedItems dollar)
  | .expr e, _, h | .throw e, _, h => by
      rw [emit]
      exact .pure ⟨wellFormed_code e h, trivial⟩
  | .ret e, _, ⟨_, h⟩ => by
      rw [emit]
      exact .pure ⟨wellFormed_code e h, trivial⟩
  | .assert e line, _, h => by
      have place := lexesAs_quoted_text dollar (s.file ++ ":" ++ toString line)
      rw [emit]
      exact .pure ⟨⟨wellFormed_code e h, .inr place, trivial⟩, trivial⟩
  | .cond test body rest, place, ⟨ht, hb, hr⟩ => by
      rw [emit]
      refine .bind (wellFormed_inBlock (wellFormed_emitFunctions s body place hb)
        (wellFormed_emitOthers s loop body place hb)) fun items h => ?_
      refine .bind (wellFormed_emitBranch s loop rest place hr) fun branch hr => .pure ?_
      exact ⟨⟨wellFormed_code test ht, h, hr⟩, trivial⟩
  | .whileLoop test body, _, ⟨ht, hb⟩ | .doWhile test body, _, ⟨ht, hb⟩ => by
      rw [emit]
      refine .newLabel fun label => ?_
      refine .bind (wellFormed_inBlock (wellFormed_emitFunctions s body _ hb)
        (wellFormed_emitOthers s (some label) body _ hb)) fun items h => .pure ?_
      exact ⟨⟨wellFormed_code test ht, h⟩, trivial⟩
  | .forEach header iterable body, _, ⟨hh, hi, hb⟩ => by
      rw [emit]
      refine .newLabel fun label => ?_
      refine .bind (wellFormed_inBlock (wellFormed_emitFunctions s body _ hb)
        (wellFormed_emitOthers s (some label) body _ hb)) fun items h => .pure ?_
      have names : (emittedHeader header).names = header.names.map mangle := by cases header <;> rfl
      refine ⟨⟨?_, wellFormed_code iterable hi, h⟩, trivial⟩
      rw [names]
      exact isEmittedName_of_mem_map hh
  | .select subject arms, place, ⟨hs, ha⟩ => by
      rw [emit]
      refine .bind (wellFormed_emitArms s loop arms place ha) fun cases h => .pure ?_
      exact ⟨⟨wellFormed_code subject hs, h⟩, trivial⟩
  | .func name params body, _, ⟨hn, hp, hb⟩ => by
      rw [emit]
      refine .bind (wellFormed_emitBody s s.implicitReturn body _ hb) fun items h => .pure ?_
      refine ⟨⟨isEmittedName hn, isEmittedName_of_mem_map hp, ?_⟩, trivial⟩
      exact (wellFormed_prologue hp hb).append h
  | .outer _, _, _ => by
      rw [emit]
      exact .pure trivial
  | .break, _, _ | .continue, _, _ => by
      rw [emit]
      exact .pure ⟨trivial, trivial⟩
  | .attempt body name handler, place, ⟨hb, hn, hh⟩ => by
      rw [emit]
      refine .bind (wellFormed_inBlock (wellFormed_emitFunctions s body place hb)
        (wellFormed_emitOthers s loop body place hb)) fun items h => ?_
      refine .bind (wellFormed_inBlock (wellFormed_emitFunctions s handler place hh)
        (wellFormed_emitOthers s loop handler place hh)) fun items' h' => .pure ?_
      exact ⟨⟨h, isEmittedName hn, h'⟩, trivial⟩

theorem wellFormed_emitBranch (s : Setting) (loop : Option Nat) :
    ∀ (rest : Alternative) (place : Parser.Place), rest.WellFormed dollar place →
      Emits (emitBranch s loop rest) (Branch.WellFormed dollar)
  | .none, _, _ => by
      rw [emitBranch]
      exact .pure trivial
  | .otherwise body, place, hb => by
      rw [emitBranch]
      exact .bind (wellFormed_inBlock (wellFormed_emitFunctions s body place hb)
        (wellFormed_emitOthers s loop body place hb)) fun items h => .pure h
  | .elif test body rest, place, ⟨ht, hb, hr⟩ => by
      rw [emitBranch]
      refine .bind (wellFormed_inBlock (wellFormed_emitFunctions s body place hb)
        (wellFormed_emitOthers s loop body place hb)) fun items h => ?_
      refine .bind (wellFormed_emitBranch s loop rest place hr) fun branch hr => .pure ?_
      exact ⟨wellFormed_code test ht, h, hr⟩

theorem wellFormed_emitArms (s : Setting) (loop : Option Nat) :
    ∀ (arms : List Arm) (place : Parser.Place), WellFormedArms dollar place arms →
      Emits (emitArms s loop arms) (WellFormedCases dollar)
  | [], _, _ => by
      rw [emitArms]
      exact .pure trivial
  | .mk patterns body :: rest, place, ⟨hp, hb, _, hr⟩ => by
      rw [emitArms]
      refine .bind (wellFormed_inBlock (wellFormed_emitFunctions s body place hb)
        (wellFormed_emitOthers s loop body place hb)) fun items h => ?_
      refine .bind (wellFormed_emitArms s loop rest place hr) fun cases hr => .pure ?_
      exact ⟨wellFormed_codes patterns hp, h, hr⟩

theorem wellFormed_emitFunctions (s : Setting) :
    ∀ (body : List Stmt) (place : Parser.Place), WellFormedBlock dollar place body →
      Emits (emitFunctions s body) (WellFormedItems dollar)
  | [], _, _ => by
      rw [emitFunctions]
      exact .pure trivial
  | .func name params body :: rest, place, ⟨⟨hn, hp, hb⟩, hr⟩ => by
      rw [emitFunctions]
      refine .bind (wellFormed_emitBody s s.implicitReturn body _ hb) fun items h => ?_
      refine .bind (wellFormed_emitFunctions s rest place hr) fun items' hr => .pure ?_
      refine ⟨⟨isEmittedName hn, isEmittedName_of_mem_map hp, ?_⟩, hr⟩
      exact (wellFormed_prologue hp hb).append h
  | .expr _ :: rest, place, ⟨_, hr⟩ | .cond .. :: rest, place, ⟨_, hr⟩
  | .whileLoop .. :: rest, place, ⟨_, hr⟩ | .doWhile .. :: rest, place, ⟨_, hr⟩
  | .forEach .. :: rest, place, ⟨_, hr⟩ | .select .. :: rest, place, ⟨_, hr⟩
  | .ret _ :: rest, place, ⟨_, hr⟩ | .outer _ :: rest, place, ⟨_, hr⟩
  | .break :: rest, place, ⟨_, hr⟩ | .continue :: rest, place, ⟨_, hr⟩
  | .assert .. :: rest, place, ⟨_, hr⟩ | .throw _ :: rest, place, ⟨_, hr⟩
  | .attempt .. :: rest, place, ⟨_, hr⟩ => by
      rw [emitFunctions]
      exact wellFormed_emitFunctions s rest place hr
      all_goals exact fun _ _ _ h => Stmt.noConfusion h

theorem wellFormed_emitOthers (s : Setting) (loop : Option Nat) :
    ∀ (body : List Stmt) (place : Parser.Place), WellFormedBlock dollar place body →
      Emits (emitOthers s loop body) (WellFormedItems dollar)
  | [], _, _ => by
      rw [emitOthers]
      exact .pure trivial
  | stmt :: rest, place, ⟨hs, hr⟩ => by
      have later := wellFormed_emitOthers s loop rest place hr
      rw [emitOthers]
      cases stmt.isFunction with
      | true =>
          have nothing : WellFormedItems dollar [] := trivial
          exact .bind (.pure nothing) fun items h =>
            .bind later fun items' hr => .pure (h.append hr)
      | false =>
          exact .bind (wellFormed_emit s loop stmt place hs) fun items h =>
            .bind later fun items' hr => .pure (h.append hr)

theorem wellFormed_emitBody (s : Setting) (returns : Bool) :
    ∀ (body : List Stmt) (place : Parser.Place), WellFormedBlock dollar place body →
      Emits (emitBody s returns body) (WellFormedItems dollar)
  | [], _, _ => by
      rw [emitBody]
      exact .pure trivial
  | stmt :: rest, place, ⟨hs, hr⟩ => by
      by_cases last : ∃ e, stmt = .expr e ∧ rest = []
      · obtain ⟨e, rfl, rfl⟩ := last
        rw [emitBody]
        cases returns <;> exact .pure ⟨wellFormed_code e hs, trivial⟩
      · rw [emitBody_cons last]
        exact .bind (wellFormed_emit s none stmt place hs) fun items h =>
          .bind (wellFormed_emitBody s returns rest place hr) fun items' hr => .pure (h.append hr)

end

/-- What is emitted for a well-formed program is well formed. -/
theorem wellFormed_emitProgram (s : Setting) {program : List Stmt}
    (h : ScriptLang.WellFormed dollar program) : WellFormedItems dollar (emitProgram s program) :=
  (wellFormed_prologue (List.forall_mem_nil _) h).append
    (wellFormed_emitBody s false program {} h 0)

end ScriptLang.Target
