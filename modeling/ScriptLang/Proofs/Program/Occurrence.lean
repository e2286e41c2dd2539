import ScriptLang.Program.Basic

/-!
# Identifiers of a program and where they stand

Every identifier that a program reads or assigns, together with the bodies around it,
innermost first. A body knows whether its function is defined at the top of the body
around it or in a nested block there: the first kind of definition is a declaration,
the second one assigns to a variable.
-/

namespace ScriptLang

/-- The body of a function, or the program. -/
structure Body where
  function : Function
  /-- The function is defined in a nested block. -/
  nested : Bool

/-- An identifier with the bodies around it, innermost first. -/
abbrev Occurrence := List Body × String

/-- Identifiers that stand in the same place. -/
def standing {α : Type} (place : α) (names : List String) : List (α × String) :=
  names.map fun name => (place, name)

mutual

/-- The identifiers of an expression. -/
def Expr.names : Expr → List String
  | .ident name => [name]
  | .number _ | .str _ | .omitted => []
  | .unary _ operand => operand.names
  | .binary _ lhs rhs => lhs.names ++ rhs.names
  | .assign _ target value => target.names ++ value.names
  | .call callee args => callee.names ++ namesInExprs args
  | .index target index => target.names ++ index.names
  | .slice target start stop => target.names ++ start.names ++ stop.names
  | .map entries => namesInEntries entries
  | .list items => namesInExprs items

/-- The identifiers of expressions one after the other. -/
def namesInExprs : List Expr → List String
  | [] => []
  | e :: rest => e.names ++ namesInExprs rest

/-- The identifiers in the keys and values of a map. -/
def namesInEntries : List (Expr × Expr) → List String
  | [] => []
  | (key, value) :: rest => key.names ++ value.names ++ namesInEntries rest

end

mutual

/-- The identifiers of a statement inside some bodies. The name of a function is
assigned where the function stands in a nested block, and declared otherwise. -/
def Stmt.occurrences (nested : Bool) (chain : List Body) : Stmt → List Occurrence
  | .expr e | .ret e | .throw e | .assert e _ => standing chain e.names
  | .cond test body rest =>
    standing chain test.names ++ occurrencesIn true chain body ++ rest.occurrences chain
  | .whileLoop test body => standing chain test.names ++ occurrencesIn true chain body
  | .doWhile test body => occurrencesIn true chain body ++ standing chain test.names
  | .forEach header iterable body =>
    standing chain (header.names ++ iterable.names) ++ occurrencesIn true chain body
  | .select subject arms => standing chain subject.names ++ occurrencesInArms chain arms
  | .func name params body =>
    standing chain (if nested then [name] else []) ++
      occurrencesIn false (⟨⟨name, params, body⟩, nested⟩ :: chain) body
  | .outer _ | .break | .continue => []
  | .attempt body name handler =>
    occurrencesIn true chain body ++ standing chain [name] ++ occurrencesIn true chain handler

/-- The identifiers of what follows a condition. -/
def Alternative.occurrences (chain : List Body) : Alternative → List Occurrence
  | .none => []
  | .otherwise body => occurrencesIn true chain body
  | .elif test body rest =>
    standing chain test.names ++ occurrencesIn true chain body ++ rest.occurrences chain

/-- The identifiers of arms. -/
def occurrencesInArms (chain : List Body) : List Arm → List Occurrence
  | [] => []
  | .mk patterns body :: rest =>
    standing chain (namesInExprs patterns) ++ occurrencesIn true chain body ++
      occurrencesInArms chain rest

/-- The identifiers of statements at the top of a body or in a nested block. -/
def occurrencesIn (nested : Bool) (chain : List Body) : List Stmt → List Occurrence
  | [] => []
  | s :: rest => s.occurrences nested chain ++ occurrencesIn nested chain rest

end

/-- The program itself as the outermost body. -/
def Body.ofProgram (program : List Stmt) : Body := ⟨⟨"", [], program⟩, false⟩

/-- The identifiers of a program. -/
def occurrencesOf (program : List Stmt) : List Occurrence :=
  occurrencesIn false [.ofProgram program] program

theorem occurrencesIn_eq_flatMap (nested : Bool) (chain : List Body) (body : List Stmt) :
    occurrencesIn nested chain body = body.flatMap (Stmt.occurrences nested chain) := by
  induction body with
  | nil => rfl
  | cons s rest ih => rw [occurrencesIn, List.flatMap_cons, ih]

/-- Only for a function it matters whether a statement stands in a nested block. -/
theorem Stmt.occurrences_of_not_isFunction {s : Stmt} (h : s.isFunction = false)
    (nested : Bool) (chain : List Body) :
    s.occurrences nested chain = s.occurrences false chain := by
  cases s <;> first | rfl | exact Bool.noConfusion h

/-- The functions of a block may be taken out of its other statements. -/
theorem occurrencesIn_perm (nested : Bool) (chain : List Body) (body : List Stmt) :
    (occurrencesIn nested chain (body.filter Stmt.isFunction) ++
      occurrencesIn nested chain (body.filter fun s => !s.isFunction)).Perm
        (occurrencesIn nested chain body) := by
  simp only [occurrencesIn_eq_flatMap]
  rw [← List.flatMap_append]
  exact (List.filter_append_perm Stmt.isFunction body).flatMap_right _

end ScriptLang
