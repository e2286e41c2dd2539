import ScriptLang.Proofs.Program.Fragment

/-!
# Programs with explicit results

`explicitReturns` turns the last statement of every function body, however deep
the function is defined, into a `return` when it is an expression statement. The
statements of the program itself stay as they are, and so does everything else.

The rewrite keeps the names of every scope: what a body binds, what it takes from
outside and which functions stand at its top do not depend on how its result is
written.
-/

namespace ScriptLang

/-! ## Making the result of one body explicit -/

/-- A function body with its result made explicit: a trailing expression
statement becomes a `return` of that expression. -/
def returningLast : List Stmt → List Stmt
  | [] => []
  | [.expr e] => [.ret e]
  | s :: rest => s :: returningLast rest

theorem returningLast_append_expr (init : List Stmt) (e : Expr) :
    returningLast (init ++ [.expr e]) = init ++ [.ret e] := by
  induction init with
  | nil => rfl
  | cons s rest ih =>
      have more : rest ++ [Stmt.expr e] ≠ [] := by simp
      rw [List.cons_append, returningLast, ih, List.cons_append]
      intro e' _ h
      exact more h

/-- A body that does not end in an expression statement is left alone. -/
theorem returningLast_of_ne {body : List Stmt} (h : ∀ init e, body ≠ init ++ [.expr e]) :
    returningLast body = body := by
  induction body using returningLast.induct with
  | case1 => rfl
  | case2 e => exact absurd rfl (h [] e)
  | case3 s rest hs ih =>
      rw [returningLast, ih]
      · intro init e he
        exact h (s :: init) e (by rw [he, List.cons_append])
      · exact hs

@[simp] theorem boundInBody_returningLast (body : List Stmt) :
    boundInBody (returningLast body) = boundInBody body := by
  fun_induction returningLast body with
  | case1 => rfl
  | case2 e => rfl
  | case3 s rest _ ih => simpa [boundInBody] using ih

@[simp] theorem outerInBlock_returningLast (body : List Stmt) :
    outerInBlock (returningLast body) = outerInBlock body := by
  fun_induction returningLast body with
  | case1 => rfl
  | case2 e => rfl
  | case3 s rest _ ih => rw [outerInBlock, ih, outerInBlock]

@[simp] theorem functionsOf_returningLast (body : List Stmt) :
    functionsOf (returningLast body) = functionsOf body := by
  fun_induction returningLast body with
  | case1 => rfl
  | case2 e => rfl
  | case3 s rest _ ih =>
      simp only [functionsOf] at ih ⊢
      rw [List.filterMap_cons, List.filterMap_cons, ih]

@[simp] theorem locals_returningLast (params : List String) (body : List Stmt) :
    locals params (returningLast body) = locals params body := by
  simp [locals]

/-! ## Making every result explicit -/

mutual

/-- The statement with the results of all functions in it made explicit. -/
def Stmt.explicitReturns : Stmt → Stmt
  | .expr e => .expr e
  | .cond test body rest => .cond test (explicitReturns body) rest.explicitReturns
  | .whileLoop test body => .whileLoop test (explicitReturns body)
  | .doWhile test body => .doWhile test (explicitReturns body)
  | .forEach header iterable body => .forEach header iterable (explicitReturns body)
  | .select subject arms => .select subject (explicitReturnsInArms arms)
  | .func name params body => .func name params (returningLast (explicitReturns body))
  | .ret value => .ret value
  | .outer names => .outer names
  | .break => .break
  | .continue => .continue
  | .assert test line => .assert test line
  | .throw value => .throw value
  | .attempt body name handler => .attempt (explicitReturns body) name (explicitReturns handler)

/-- What follows a condition, with the results of all functions in it made explicit. -/
def Alternative.explicitReturns : Alternative → Alternative
  | .none => .none
  | .otherwise body => .otherwise (explicitReturns body)
  | .elif test body rest => .elif test (explicitReturns body) rest.explicitReturns

/-- Arms with the results of all functions in them made explicit. -/
def explicitReturnsInArms : List Arm → List Arm
  | [] => []
  | .mk patterns body :: rest => .mk patterns (explicitReturns body) :: explicitReturnsInArms rest

/-- Statements with the results of all functions in them made explicit. Their own last
one is no result. -/
def explicitReturns : List Stmt → List Stmt
  | [] => []
  | s :: rest => s.explicitReturns :: explicitReturns rest

end

/-- The function with its own result and those of all functions in it made explicit. -/
def Function.explicitReturns (f : Function) : Function :=
  { f with body := returningLast (ScriptLang.explicitReturns f.body) }

theorem explicitReturns_eq_map (body : List Stmt) :
    explicitReturns body = body.map Stmt.explicitReturns := by
  induction body with
  | nil => rfl
  | cons s rest ih => rw [explicitReturns, ih, List.map_cons]

/-- A body that ends in an expression returns it. -/
theorem returningLast_explicitReturns_append (rest : List Stmt) (last : Expr) :
    returningLast (explicitReturns (rest ++ [.expr last])) =
      explicitReturns rest ++ [.ret last] := by
  rw [explicitReturns_eq_map, List.map_append, List.map_singleton, Stmt.explicitReturns,
    returningLast_append_expr, explicitReturns_eq_map]

/-- The last statement of another body is none that became an expression. -/
theorem returningLast_explicitReturns_of_ne {body : List Stmt}
    (h : ∀ rest last, body ≠ rest ++ [.expr last]) :
    returningLast (explicitReturns body) = explicitReturns body := by
  refine returningLast_of_ne fun init e ends => ?_
  rw [explicitReturns_eq_map] at ends
  obtain ⟨rest, tail, rfl, -, ends⟩ := List.map_eq_append_iff.mp ends
  obtain ⟨s, rfl, same⟩ := List.map_eq_singleton_iff.mp ends
  cases s with
  | expr last => exact h rest last rfl
  | _ => cases same

/-! ## Names -/

mutual

theorem Stmt.bound_explicitReturns (nested : Bool) :
    ∀ s : Stmt, s.explicitReturns.bound nested = s.bound nested
  | .expr _ | .func .. | .ret _ | .outer _ | .break | .continue | .assert .. | .throw _ => by
      simp only [Stmt.explicitReturns, Stmt.bound]
  | .cond test body rest => by
      simp only [Stmt.explicitReturns, Stmt.bound, boundInBlock_explicitReturns body,
        Alternative.bound_explicitReturns rest]
  | .whileLoop _ body | .doWhile _ body | .forEach _ _ body => by
      simp only [Stmt.explicitReturns, Stmt.bound, boundInBlock_explicitReturns body]
  | .select _ arms => by
      simp only [Stmt.explicitReturns, Stmt.bound, boundInArms_explicitReturns arms]
  | .attempt body _ handler => by
      simp only [Stmt.explicitReturns, Stmt.bound, boundInBlock_explicitReturns body,
        boundInBlock_explicitReturns handler]

theorem Alternative.bound_explicitReturns :
    ∀ rest : Alternative, rest.explicitReturns.bound = rest.bound
  | .none => by simp only [Alternative.explicitReturns]
  | .otherwise body => by
      simp only [Alternative.explicitReturns, Alternative.bound, boundInBlock_explicitReturns body]
  | .elif _ body rest => by
      simp only [Alternative.explicitReturns, Alternative.bound, boundInBlock_explicitReturns body,
        Alternative.bound_explicitReturns rest]

theorem boundInArms_explicitReturns :
    ∀ arms : List Arm, boundInArms (explicitReturnsInArms arms) = boundInArms arms
  | [] => by simp only [explicitReturnsInArms]
  | .mk _ body :: rest => by
      simp only [explicitReturnsInArms, boundInArms, boundInBlock_explicitReturns body,
        boundInArms_explicitReturns rest]

theorem boundInBlock_explicitReturns :
    ∀ body : List Stmt, boundInBlock (explicitReturns body) = boundInBlock body
  | [] => by simp only [explicitReturns]
  | s :: rest => by
      simp only [explicitReturns, boundInBlock, Stmt.bound_explicitReturns true s,
        boundInBlock_explicitReturns rest]

end

mutual

theorem Stmt.outerNames_explicitReturns :
    ∀ s : Stmt, s.explicitReturns.outerNames = s.outerNames
  | .expr _ | .func .. | .ret _ | .outer _ | .break | .continue | .assert .. | .throw _ => by
      simp only [Stmt.explicitReturns, Stmt.outerNames]
  | .cond _ body rest => by
      simp only [Stmt.explicitReturns, Stmt.outerNames, outerInBlock_explicitReturns body,
        Alternative.outerNames_explicitReturns rest]
  | .whileLoop _ body | .doWhile _ body | .forEach _ _ body => by
      simp only [Stmt.explicitReturns, Stmt.outerNames, outerInBlock_explicitReturns body]
  | .select _ arms => by
      simp only [Stmt.explicitReturns, Stmt.outerNames, outerInArms_explicitReturns arms]
  | .attempt body _ handler => by
      simp only [Stmt.explicitReturns, Stmt.outerNames, outerInBlock_explicitReturns body,
        outerInBlock_explicitReturns handler]

theorem Alternative.outerNames_explicitReturns :
    ∀ rest : Alternative, rest.explicitReturns.outerNames = rest.outerNames
  | .none => by simp only [Alternative.explicitReturns]
  | .otherwise body => by
      simp only [Alternative.explicitReturns, Alternative.outerNames,
        outerInBlock_explicitReturns body]
  | .elif _ body rest => by
      simp only [Alternative.explicitReturns, Alternative.outerNames,
        outerInBlock_explicitReturns body, Alternative.outerNames_explicitReturns rest]

theorem outerInArms_explicitReturns :
    ∀ arms : List Arm, outerInArms (explicitReturnsInArms arms) = outerInArms arms
  | [] => by simp only [explicitReturnsInArms]
  | .mk _ body :: rest => by
      simp only [explicitReturnsInArms, outerInArms, outerInBlock_explicitReturns body,
        outerInArms_explicitReturns rest]

theorem outerInBlock_explicitReturns :
    ∀ body : List Stmt, outerInBlock (explicitReturns body) = outerInBlock body
  | [] => by simp only [explicitReturns]
  | s :: rest => by
      simp only [explicitReturns, outerInBlock, Stmt.outerNames_explicitReturns s,
        outerInBlock_explicitReturns rest]

end

theorem Stmt.function?_explicitReturns (s : Stmt) :
    s.explicitReturns.function? = s.function?.map Function.explicitReturns := by
  cases s <;> rfl

/-- The functions of a block are those of the block before, each rewritten. -/
theorem functionsOf_explicitReturns (body : List Stmt) :
    functionsOf (explicitReturns body) = (functionsOf body).map Function.explicitReturns := by
  induction body with
  | nil => rfl
  | cons s rest ih =>
      simp only [functionsOf] at ih ⊢
      rw [explicitReturns, List.filterMap_cons, List.filterMap_cons, ih,
        Stmt.function?_explicitReturns]
      cases s.function? <;> rfl

@[simp] theorem map_name_functionsOf_explicitReturns (body : List Stmt) :
    (functionsOf (explicitReturns body)).map Function.name =
      (functionsOf body).map Function.name := by
  rw [functionsOf_explicitReturns, List.map_map]
  rfl

@[simp] theorem boundInBody_explicitReturns (body : List Stmt) :
    boundInBody (explicitReturns body) = boundInBody body := by
  induction body with
  | nil => rfl
  | cons s rest ih =>
      simp only [boundInBody] at ih ⊢
      rw [explicitReturns, List.flatMap_cons, List.flatMap_cons, ih,
        Stmt.bound_explicitReturns false s]

/-- Explicit results change no scope. -/
@[simp] theorem locals_explicitReturns (params : List String) (body : List Stmt) :
    locals params (explicitReturns body) = locals params body := by
  simp [locals, outerInBlock_explicitReturns]

end ScriptLang
