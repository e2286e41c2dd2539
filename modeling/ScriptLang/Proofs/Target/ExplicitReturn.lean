import ScriptLang.Proofs.Program.ExplicitReturn
import ScriptLang.Target.Emit

/-!
# Emission of explicit results

Emitting a program whose functions return their last expression gives the same
items as emitting the program with these results made explicit. The number of
loops written so far is part of the statement, since it goes into the labels.
-/

namespace ScriptLang

theorem Stmt.isFunction_explicitReturns (s : Stmt) :
    s.explicitReturns.isFunction = s.isFunction := by
  rw [Stmt.isFunction, Stmt.function?_explicitReturns, Option.isSome_map, Stmt.isFunction]

namespace Target

/-- A statement of a body is emitted like any other, unless it may be the result. -/
theorem emitBody_cons {s : Setting} {returns : Bool} {stmt : Stmt} {rest : List Stmt}
    (h : ¬ ∃ e, stmt = .expr e ∧ rest = []) :
    emitBody s returns (stmt :: rest) = do
      let items ← emit s none stmt
      return items ++ (← emitBody s returns rest) := by
  rw [emitBody]
  intro e he hr
  exact h ⟨e, he, hr⟩

/-- Without a result, the last statement is no exception. -/
theorem emitBody_false_cons (s : Setting) (stmt : Stmt) (rest : List Stmt) :
    emitBody s false (stmt :: rest) = do
      let items ← emit s none stmt
      return items ++ (← emitBody s false rest) := by
  by_cases h : ∃ e, stmt = .expr e ∧ rest = []
  · obtain ⟨e, rfl, rfl⟩ := h
    simp [emitBody, emit]
  · exact emitBody_cons h

/-- Returning the last expression of a body is emitting it as a `return`. -/
theorem emitBody_returningLast (s : Setting) (body : List Stmt) :
    emitBody s false (returningLast body) = emitBody s true body := by
  fun_induction returningLast body with
  | case1 => simp [emitBody]
  | case2 e => simp [emitBody, emit]
  | case3 stmt rest h ih =>
      rw [emitBody_false_cons, ih, emitBody_cons]
      rintro ⟨e, rfl, rfl⟩
      exact h e rfl rfl

theorem prologue_explicitReturns (params : List String) (body : List Stmt) :
    prologue params (explicitReturns body) = prologue params body := by
  simp [prologue]

/-- The emitted body of a function after its prologue. -/
theorem prologue_returningLast (params : List String) (body : List Stmt) :
    prologue params (returningLast (explicitReturns body)) = prologue params body := by
  simp [prologue]

mutual

theorem emit_explicitReturns (file : String) (loop : Option Nat) :
    ∀ s : Stmt, emit ⟨file, false⟩ loop s.explicitReturns = emit ⟨file, true⟩ loop s
  | .expr _ | .ret _ | .outer _ | .break | .continue | .assert .. | .throw _ => by
      simp only [Stmt.explicitReturns, emit]
  | .cond _ body rest => by
      simp only [Stmt.explicitReturns, emit, emitFunctions_explicitReturns file body,
        emitOthers_explicitReturns file loop body, emitBranch_explicitReturns file loop rest]
  | .whileLoop _ body | .doWhile _ body | .forEach _ _ body => by
      simp only [Stmt.explicitReturns, emit, emitFunctions_explicitReturns file body,
        emitOthers_explicitReturns file _ body]
  | .select _ arms => by
      simp only [Stmt.explicitReturns, emit, emitArms_explicitReturns file loop arms]
  | .func name params body => by
      simp only [Stmt.explicitReturns, emit, emitBody_returningLast, prologue_returningLast,
        emitBody_explicitReturns file true body]
  | .attempt body _ handler => by
      simp only [Stmt.explicitReturns, emit, emitFunctions_explicitReturns file body,
        emitOthers_explicitReturns file loop body, emitFunctions_explicitReturns file handler,
        emitOthers_explicitReturns file loop handler]

theorem emitBranch_explicitReturns (file : String) (loop : Option Nat) :
    ∀ rest : Alternative,
      emitBranch ⟨file, false⟩ loop rest.explicitReturns = emitBranch ⟨file, true⟩ loop rest
  | .none => by simp only [Alternative.explicitReturns, emitBranch]
  | .otherwise body => by
      simp only [Alternative.explicitReturns, emitBranch, emitFunctions_explicitReturns file body,
        emitOthers_explicitReturns file loop body]
  | .elif _ body rest => by
      simp only [Alternative.explicitReturns, emitBranch, emitFunctions_explicitReturns file body,
        emitOthers_explicitReturns file loop body, emitBranch_explicitReturns file loop rest]

theorem emitArms_explicitReturns (file : String) (loop : Option Nat) :
    ∀ arms : List Arm,
      emitArms ⟨file, false⟩ loop (explicitReturnsInArms arms) = emitArms ⟨file, true⟩ loop arms
  | [] => by simp only [explicitReturnsInArms, emitArms]
  | .mk _ body :: rest => by
      simp only [explicitReturnsInArms, emitArms, emitFunctions_explicitReturns file body,
        emitOthers_explicitReturns file loop body, emitArms_explicitReturns file loop rest]

theorem emitFunctions_explicitReturns (file : String) :
    ∀ body : List Stmt,
      emitFunctions ⟨file, false⟩ (explicitReturns body) = emitFunctions ⟨file, true⟩ body
  | [] => by simp only [explicitReturns, emitFunctions]
  | .func name params body :: rest => by
      simp only [explicitReturns, Stmt.explicitReturns, emitFunctions, emitBody_returningLast,
        prologue_returningLast, emitBody_explicitReturns file true body,
        emitFunctions_explicitReturns file rest]
  | .expr _ :: rest | .cond .. :: rest | .whileLoop .. :: rest | .doWhile .. :: rest
  | .forEach .. :: rest | .select .. :: rest | .ret _ :: rest | .outer _ :: rest
  | .break :: rest | .continue :: rest | .assert .. :: rest | .throw _ :: rest
  | .attempt .. :: rest => by
      simp only [explicitReturns, Stmt.explicitReturns, emitFunctions,
        emitFunctions_explicitReturns file rest]

theorem emitOthers_explicitReturns (file : String) (loop : Option Nat) :
    ∀ body : List Stmt,
      emitOthers ⟨file, false⟩ loop (explicitReturns body) = emitOthers ⟨file, true⟩ loop body
  | [] => by simp only [explicitReturns, emitOthers]
  | s :: rest => by
      simp only [explicitReturns, emitOthers, Stmt.isFunction_explicitReturns,
        emit_explicitReturns file loop s, emitOthers_explicitReturns file loop rest]

theorem emitBody_explicitReturns (file : String) (returns : Bool) :
    ∀ body : List Stmt,
      emitBody ⟨file, false⟩ returns (explicitReturns body) = emitBody ⟨file, true⟩ returns body
  | [] => by simp only [explicitReturns, emitBody]
  | s :: rest => by
      by_cases h : ∃ e, s = .expr e ∧ rest = []
      · obtain ⟨e, rfl, rfl⟩ := h
        simp only [explicitReturns, Stmt.explicitReturns, emitBody]
      · rw [explicitReturns, emitBody_cons, emit_explicitReturns file none s,
          emitBody_explicitReturns file returns rest, emitBody_cons h]
        -- a statement that becomes an expression statement was one before
        rintro ⟨e, he, hr⟩
        cases s <;> cases rest <;> simp_all [Stmt.explicitReturns, explicitReturns]

end

end Target

/-- The emitted text of a program that returns last expressions is the text of the
program with explicit results. -/
theorem generate_explicitReturns (o : Options) (file : String) (program : List Stmt) :
    generate { o with implicitReturn := false } file (explicitReturns program) =
      generate { o with implicitReturn := true } file program := by
  simp only [generate, Target.emitProgram, Target.prologue_explicitReturns,
    Target.emitBody_explicitReturns]

end ScriptLang
