import ScriptLang.Program.Parser.Statement
import ScriptLang.Program.Scope
import ScriptLang.Proofs.Token.Lexeme

/-!
# Well-formed programs

The trees that programs are made of. Names are words that are not reserved, and
numbers and strings keep texts that are read as such. An assignment has a target
that can be assigned to, and an operator, if any, that can be joined with the
equals sign. Only a bound of a slice is left out. Functions allow `return`, loops
allow jumps, and a function inside a loop is outside of it.

What arms and `outer` must look like is part of it too: an arm without patterns
is the last one, and at least one name is declared at a time.
-/

namespace ScriptLang

open ScriptLang.Parser (Place)

/-- The word may name a variable, a parameter or a function. -/
def IsName (dollar : Bool) (word : String) : Prop :=
  LexesAs dollar .word word ∧ Token.isKeyword word = false

mutual

/-- The expression is well formed. -/
def Expr.WellFormed (dollar : Bool) : Expr → Prop
  | .ident name => IsName dollar name
  | .number text => LexesAs dollar .number text
  | .str text => LexesAs dollar .quote text
  | .omitted => False
  | .unary _ operand => operand.WellFormed dollar
  | .binary _ lhs rhs => lhs.WellFormed dollar ∧ rhs.WellFormed dollar
  | .assign op target value =>
    target.isAssignable = true ∧ (∀ b ∈ op, BinaryOp.updates b = true) ∧
      target.WellFormed dollar ∧ value.WellFormed dollar
  | .call callee args => callee.WellFormed dollar ∧ WellFormedExprs dollar args
  | .index target index => target.WellFormed dollar ∧ index.WellFormed dollar
  | .slice target start stop =>
    target.WellFormed dollar ∧ (start = .omitted ∨ start.WellFormed dollar) ∧
      (stop = .omitted ∨ stop.WellFormed dollar)
  | .map entries => WellFormedEntries dollar entries
  | .list items => WellFormedExprs dollar items

/-- All expressions are well formed. -/
def WellFormedExprs (dollar : Bool) : List Expr → Prop
  | [] => True
  | e :: rest => e.WellFormed dollar ∧ WellFormedExprs dollar rest

/-- All keys and values are well formed. -/
def WellFormedEntries (dollar : Bool) : List (Expr × Expr) → Prop
  | [] => True
  | (key, value) :: rest =>
    key.WellFormed dollar ∧ value.WellFormed dollar ∧ WellFormedEntries dollar rest

end

mutual

/-- The statement is well formed where it stands. -/
def Stmt.WellFormed (dollar : Bool) (place : Place) : Stmt → Prop
  | .expr e => e.WellFormed dollar
  | .cond test body rest =>
    test.WellFormed dollar ∧ WellFormedBlock dollar place body ∧ rest.WellFormed dollar place
  | .whileLoop test body | .doWhile test body =>
    test.WellFormed dollar ∧ WellFormedBlock dollar { place with inLoop := true } body
  | .forEach header iterable body =>
    (∀ x ∈ header.names, IsName dollar x) ∧ iterable.WellFormed dollar ∧
      WellFormedBlock dollar { place with inLoop := true } body
  | .select subject arms => subject.WellFormed dollar ∧ WellFormedArms dollar place arms
  | .func name params body =>
    IsName dollar name ∧ (∀ x ∈ params, IsName dollar x) ∧
      WellFormedBlock dollar ⟨true, false⟩ body
  | .ret value => place.inFunction = true ∧ value.WellFormed dollar
  | .outer names => names ≠ [] ∧ ∀ x ∈ names, IsName dollar x
  | .break | .continue => place.inLoop = true
  | .assert test _ => test.WellFormed dollar
  | .throw value => value.WellFormed dollar
  | .attempt body name handler =>
    WellFormedBlock dollar place body ∧ IsName dollar name ∧ WellFormedBlock dollar place handler

/-- What follows the body of a condition is well formed. -/
def Alternative.WellFormed (dollar : Bool) (place : Place) : Alternative → Prop
  | .none => True
  | .otherwise body => WellFormedBlock dollar place body
  | .elif test body rest =>
    test.WellFormed dollar ∧ WellFormedBlock dollar place body ∧ rest.WellFormed dollar place

/-- The arms are well formed, and nothing follows one without patterns. -/
def WellFormedArms (dollar : Bool) (place : Place) : List Arm → Prop
  | [] => True
  | .mk patterns body :: rest =>
    WellFormedExprs dollar patterns ∧ WellFormedBlock dollar place body ∧
      (patterns = [] → rest = []) ∧ WellFormedArms dollar place rest

/-- All statements are well formed. -/
def WellFormedBlock (dollar : Bool) (place : Place) : List Stmt → Prop
  | [] => True
  | s :: rest => s.WellFormed dollar place ∧ WellFormedBlock dollar place rest

end

/-- A program is well formed as a block outside of every function and every loop. -/
def WellFormed (dollar : Bool) (program : List Stmt) : Prop :=
  WellFormedBlock dollar {} program

/-! ## Bound names -/

section

variable {dollar : Bool} {place : Place} {x : String}

mutual

/-- What a well-formed expression binds are names. -/
theorem Expr.WellFormed.isName : ∀ {e : Expr}, e.WellFormed dollar → x ∈ e.bound → IsName dollar x
  | .ident _, _, hx | .number _, _, hx | .str _, _, hx | .omitted, _, hx => by
      simp [Expr.bound] at hx
  | .unary _ operand, h, hx => Expr.WellFormed.isName (e := operand) h hx
  | .binary _ _ _, ⟨hl, hr⟩, hx => by
      rcases List.mem_append.mp hx with hx | hx
      · exact hl.isName hx
      · exact hr.isName hx
  | .assign op target value, ⟨_, _, ht, hv⟩, hx => by
      have either : x ∈ target.bound ++ value.bound → IsName dollar x := by
        intro hx
        rcases List.mem_append.mp hx with hx | hx
        · exact ht.isName hx
        · exact hv.isName hx
      cases op with
      | some op => exact either (by cases target <;> exact hx)
      | none =>
          cases target with
          | ident name =>
              rcases List.mem_cons.mp hx with rfl | hx
              · exact ht
              · exact hv.isName hx
          | _ => exact either hx
  | .call _ _, ⟨hc, ha⟩, hx => by
      rcases List.mem_append.mp hx with hx | hx
      · exact hc.isName hx
      · exact isName_of_boundInExprs ha hx
  | .index _ _, ⟨ht, hi⟩, hx => by
      rcases List.mem_append.mp hx with hx | hx
      · exact ht.isName hx
      · exact hi.isName hx
  | .slice _ start stop, ⟨ht, hs, he⟩, hx => by
      simp only [Expr.bound, List.mem_append] at hx
      rcases hx with (hx | hx) | hx
      · exact ht.isName hx
      · rcases hs with rfl | hs
        · simp [Expr.bound] at hx
        · exact hs.isName hx
      · rcases he with rfl | he
        · simp [Expr.bound] at hx
        · exact he.isName hx
  | .map entries, h, hx => by
      have wellFormed : WellFormedEntries dollar entries := h
      exact isName_of_boundInEntries wellFormed hx
  | .list items, h, hx => by
      have wellFormed : WellFormedExprs dollar items := h
      exact isName_of_boundInExprs wellFormed hx

theorem isName_of_boundInExprs : ∀ {es : List Expr}, WellFormedExprs dollar es →
    x ∈ boundInExprs es → IsName dollar x
  | [], _, hx => by simp [boundInExprs] at hx
  | _ :: _, ⟨he, hr⟩, hx => by
      rcases List.mem_append.mp hx with hx | hx
      · exact he.isName hx
      · exact isName_of_boundInExprs hr hx

theorem isName_of_boundInEntries : ∀ {entries : List (Expr × Expr)},
    WellFormedEntries dollar entries → x ∈ boundInEntries entries → IsName dollar x
  | [], _, hx => by simp [boundInEntries] at hx
  | (_, _) :: _, ⟨hk, hv, hr⟩, hx => by
      simp only [boundInEntries, List.mem_append] at hx
      rcases hx with (hx | hx) | hx
      · exact hk.isName hx
      · exact hv.isName hx
      · exact isName_of_boundInEntries hr hx

end

mutual

/-- What a well-formed statement binds are names. -/
theorem Stmt.WellFormed.isName : ∀ {place : Place} {nested : Bool} {s : Stmt},
    s.WellFormed dollar place → x ∈ s.bound nested → IsName dollar x
  | _, _, .expr e, h, hx | _, _, .assert e _, h, hx | _, _, .throw e, h, hx =>
      Expr.WellFormed.isName (e := e) h hx
  | _, _, .ret _, h, hx => h.2.isName hx
  | _, _, .outer _, _, hx | _, _, .break, _, hx | _, _, .continue, _, hx => by
      simp [Stmt.bound] at hx
  | _, _, .cond _ _ _, ⟨ht, hb, hr⟩, hx => by
      simp only [Stmt.bound, List.mem_append] at hx
      rcases hx with (hx | hx) | hx
      · exact ht.isName hx
      · exact isName_of_boundInBlock hb hx
      · exact hr.isName hx
  | _, _, .whileLoop _ _, ⟨ht, hb⟩, hx | _, _, .doWhile _ _, ⟨ht, hb⟩, hx => by
      rcases List.mem_append.mp hx with hx | hx
      · exact ht.isName hx
      · exact isName_of_boundInBlock hb hx
  | _, _, .forEach _ _ _, ⟨hh, hi, hb⟩, hx => by
      simp only [Stmt.bound, List.mem_append] at hx
      rcases hx with (hx | hx) | hx
      · exact hh x hx
      · exact hi.isName hx
      · exact isName_of_boundInBlock hb hx
  | _, _, .select _ _, ⟨hs, ha⟩, hx => by
      rcases List.mem_append.mp hx with hx | hx
      · exact hs.isName hx
      · exact isName_of_boundInArms ha hx
  | _, nested, .func _ _ _, h, hx => by
      cases nested with
      | false => simp [Stmt.bound] at hx
      | true =>
          obtain rfl := List.mem_singleton.mp hx
          exact h.1
  | _, _, .attempt _ _ _, ⟨hb, hn, hh⟩, hx => by
      simp only [Stmt.bound, List.mem_append, List.mem_cons] at hx
      rcases hx with hx | rfl | hx
      · exact isName_of_boundInBlock hb hx
      · exact hn
      · exact isName_of_boundInBlock hh hx

theorem Alternative.WellFormed.isName : ∀ {place : Place} {rest : Alternative},
    rest.WellFormed dollar place → x ∈ rest.bound → IsName dollar x
  | _, .none, _, hx => by simp [Alternative.bound] at hx
  | place, .otherwise body, h, hx => by
      have wellFormed : WellFormedBlock dollar place body := h
      exact isName_of_boundInBlock wellFormed hx
  | _, .elif _ _ _, ⟨ht, hb, hr⟩, hx => by
      simp only [Alternative.bound, List.mem_append] at hx
      rcases hx with (hx | hx) | hx
      · exact ht.isName hx
      · exact isName_of_boundInBlock hb hx
      · exact hr.isName hx

theorem isName_of_boundInArms : ∀ {place : Place} {arms : List Arm},
    WellFormedArms dollar place arms → x ∈ boundInArms arms → IsName dollar x
  | _, [], _, hx => by simp [boundInArms] at hx
  | _, .mk _ _ :: _, ⟨hp, hb, _, hr⟩, hx => by
      simp only [boundInArms, List.mem_append] at hx
      rcases hx with (hx | hx) | hx
      · exact isName_of_boundInExprs hp hx
      · exact isName_of_boundInBlock hb hx
      · exact isName_of_boundInArms hr hx

theorem isName_of_boundInBlock : ∀ {place : Place} {body : List Stmt},
    WellFormedBlock dollar place body → x ∈ boundInBlock body → IsName dollar x
  | _, [], _, hx => by simp [boundInBlock] at hx
  | _, _ :: _, ⟨hs, hr⟩, hx => by
      rcases List.mem_append.mp hx with hx | hx
      · exact hs.isName hx
      · exact isName_of_boundInBlock hr hx

end

/-- The locals of a well-formed body are names. -/
theorem isName_of_locals {body : List Stmt} (h : WellFormedBlock dollar place body)
    {params : List String} (hx : x ∈ locals params body) : IsName dollar x := by
  have bound : x ∈ boundInBody body := List.mem_eraseDups.mp (List.mem_filter.mp hx).1
  clear hx
  induction body with
  | nil => simp [boundInBody] at bound
  | cons s rest ih =>
      obtain ⟨hs, hr⟩ := h
      rcases List.mem_append.mp bound with bound | bound
      · exact hs.isName bound
      · exact ih hr bound

end

end ScriptLang
