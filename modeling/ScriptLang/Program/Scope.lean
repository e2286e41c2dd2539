import ScriptLang.Program.Basic

/-!
# Local names

Which names of a body are its own. A name is bound by a plain assignment, by a
loop header, by the handler of an `attempt`, or by a function inside a nested
block. A function at the top of the body has a binding of its own and is not a
local; neither is a parameter or a name the body declares `outer`. The bodies of
nested functions are scopes of their own and are not looked into.
-/

namespace ScriptLang

mutual

/-- The names bound by plain assignments in an expression, in source order. -/
def Expr.bound : Expr → List String
  | .ident _ | .number _ | .str _ | .omitted => []
  | .unary _ operand => operand.bound
  | .binary _ lhs rhs => lhs.bound ++ rhs.bound
  | .assign none (.ident name) value => name :: value.bound
  | .assign _ target value => target.bound ++ value.bound
  | .call callee args => callee.bound ++ boundInExprs args
  | .index target index => target.bound ++ index.bound
  | .slice target start stop => target.bound ++ start.bound ++ stop.bound
  | .map entries => boundInEntries entries
  | .list items => boundInExprs items

/-- The names bound in expressions one after the other. -/
def boundInExprs : List Expr → List String
  | [] => []
  | e :: rest => e.bound ++ boundInExprs rest

/-- The names bound in the keys and values of a map. -/
def boundInEntries : List (Expr × Expr) → List String
  | [] => []
  | (key, value) :: rest => key.bound ++ value.bound ++ boundInEntries rest

end

mutual

/-- The names a statement binds, in source order. A function counts only when
the statement stands in a nested block. -/
def Stmt.bound (nested : Bool) : Stmt → List String
  | .expr e => e.bound
  | .cond test body rest => test.bound ++ boundInBlock body ++ rest.bound
  | .whileLoop test body => test.bound ++ boundInBlock body
  | .doWhile test body => test.bound ++ boundInBlock body
  | .forEach header iterable body => header.names ++ iterable.bound ++ boundInBlock body
  | .select subject arms => subject.bound ++ boundInArms arms
  | .func name _ _ => if nested then [name] else []
  | .ret value => value.bound
  | .outer _ | .break | .continue => []
  | .assert test _ => test.bound
  | .throw value => value.bound
  | .attempt body name handler => boundInBlock body ++ name :: boundInBlock handler

/-- The names bound by what follows a condition. -/
def Alternative.bound : Alternative → List String
  | .none => []
  | .otherwise body => boundInBlock body
  | .elif test body rest => test.bound ++ boundInBlock body ++ rest.bound

/-- The names bound by the patterns and bodies of arms. -/
def boundInArms : List Arm → List String
  | [] => []
  | .mk patterns body :: rest => boundInExprs patterns ++ boundInBlock body ++ boundInArms rest

/-- The names bound in a nested block. -/
def boundInBlock : List Stmt → List String
  | [] => []
  | s :: rest => s.bound true ++ boundInBlock rest

end

mutual

/-- The names a statement declares `outer`, at any depth of nested blocks. -/
def Stmt.outerNames : Stmt → List String
  | .outer names => names
  | .cond _ body rest => outerInBlock body ++ rest.outerNames
  | .whileLoop _ body | .doWhile _ body | .forEach _ _ body => outerInBlock body
  | .select _ arms => outerInArms arms
  | .attempt body _ handler => outerInBlock body ++ outerInBlock handler
  | .expr _ | .func .. | .ret _ | .break | .continue | .assert .. | .throw _ => []

/-- The names declared `outer` by what follows a condition. -/
def Alternative.outerNames : Alternative → List String
  | .none => []
  | .otherwise body => outerInBlock body
  | .elif _ body rest => outerInBlock body ++ rest.outerNames

/-- The names declared `outer` in the bodies of arms. -/
def outerInArms : List Arm → List String
  | [] => []
  | .mk _ body :: rest => outerInBlock body ++ outerInArms rest

/-- The names declared `outer` in a block. -/
def outerInBlock : List Stmt → List String
  | [] => []
  | s :: rest => s.outerNames ++ outerInBlock rest

end

/-- The names bound in a body, repetitions included. -/
def boundInBody (body : List Stmt) : List String :=
  body.flatMap (Stmt.bound false)

/-- The locals of a body, each once, in the order of their first binding. -/
def locals (params : List String) (body : List Stmt) : List String :=
  let excluded := params ++ outerInBlock body ++ (functionsOf body).map Function.name
  (boundInBody body).eraseDups.filter fun name => !excluded.contains name

/-! ## The scopes of a program -/

/-- The names of one body. The program itself is a body without a function name. -/
structure Scope where
  function : Option String
  params : List String
  locals : List String
  deriving Repr, DecidableEq

mutual

/-- The scopes of the functions a statement defines, outer ones first. -/
def Stmt.scopes : Stmt → List Scope
  | .func name params body => ⟨some name, params, locals params body⟩ :: scopesOfBlock body
  | .cond _ body rest => scopesOfBlock body ++ rest.scopes
  | .whileLoop _ body | .doWhile _ body | .forEach _ _ body => scopesOfBlock body
  | .select _ arms => scopesOfArms arms
  | .attempt body _ handler => scopesOfBlock body ++ scopesOfBlock handler
  | .expr _ | .outer _ | .ret _ | .break | .continue | .assert .. | .throw _ => []

/-- The scopes of the functions in what follows a condition. -/
def Alternative.scopes : Alternative → List Scope
  | .none => []
  | .otherwise body => scopesOfBlock body
  | .elif _ body rest => scopesOfBlock body ++ rest.scopes

/-- The scopes of the functions in the bodies of arms. -/
def scopesOfArms : List Arm → List Scope
  | [] => []
  | .mk _ body :: rest => scopesOfBlock body ++ scopesOfArms rest

/-- The scopes of the functions in a block. -/
def scopesOfBlock : List Stmt → List Scope
  | [] => []
  | s :: rest => s.scopes ++ scopesOfBlock rest

end

/-- Every scope of a program, the program's own first. -/
def scopesOf (program : List Stmt) : List Scope :=
  ⟨none, [], locals [] program⟩ :: scopesOfBlock program

end ScriptLang
