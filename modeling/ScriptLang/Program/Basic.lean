import ScriptLang.Program.Operator

/-!
# Programs

The tree of a source text. Numbers and strings keep their spelling, so that a
program can be written out again exactly; what they stand for is settled where
they are evaluated. A chain of `elif`s is a chain of alternatives, each the only
continuation of the one before.
-/

namespace ScriptLang

/-- Expressions. The words `null`, `true` and `false` are names here. -/
inductive Expr where
  | ident (name : String)
  /-- A number as written. -/
  | number (text : String)
  /-- A string as written, with its quotes and escapes. -/
  | str (text : String)
  /-- An omitted bound of a slice. -/
  | omitted
  | unary (op : UnaryOp) (operand : Expr)
  | binary (op : BinaryOp) (lhs rhs : Expr)
  /-- Assignment, or an update when there is an operator. -/
  | assign (op : Option BinaryOp) (target value : Expr)
  | call (callee : Expr) (args : List Expr)
  /-- `target[index]`; a member access is an index by a string. -/
  | index (target index : Expr)
  | slice (target start stop : Expr)
  | map (entries : List (Expr × Expr))
  | list (items : List Expr)
  deriving Repr

namespace Expr

/-- The expression a bare `return` stands for. -/
def null : Expr := .ident "null"

/-- The expression may stand on the left of an assignment. -/
def isAssignable : Expr → Bool
  | ident _ | index .. => true
  | _ => false

end Expr

/-- The variables a loop binds in each round: the value alone, or its key as well. -/
inductive LoopHeader where
  | single (name : String)
  | keyed (key value : String)
  deriving Repr, DecidableEq

namespace LoopHeader

/-- The names bound by the header, in the order they are written. -/
def names : LoopHeader → List String
  | single name => [name]
  | keyed key value => [key, value]

end LoopHeader

mutual

/-- Statements. -/
inductive Stmt where
  | expr (e : Expr)
  | cond (test : Expr) (body : List Stmt) (rest : Alternative)
  | whileLoop (test : Expr) (body : List Stmt)
  /-- The body runs once before the first test. -/
  | doWhile (test : Expr) (body : List Stmt)
  | forEach (header : LoopHeader) (iterable : Expr) (body : List Stmt)
  | select (subject : Expr) (arms : List Arm)
  | func (name : String) (params : List String) (body : List Stmt)
  | ret (value : Expr)
  /-- Names that belong to an enclosing function. -/
  | outer (names : List String)
  | break
  | continue
  | assert (test : Expr) (line : Nat)
  | throw (value : Expr)
  | attempt (body : List Stmt) (name : String) (handler : List Stmt)
  deriving Repr

/-- What follows the body of a condition. -/
inductive Alternative where
  | none
  | otherwise (body : List Stmt)
  | elif (test : Expr) (body : List Stmt) (rest : Alternative)
  deriving Repr

/-- One arm of a selection. An arm without patterns takes whatever reaches it. -/
inductive Arm where
  | mk (patterns : List Expr) (body : List Stmt)
  deriving Repr

end

namespace Arm

def patterns : Arm → List Expr
  | mk patterns _ => patterns

def body : Arm → List Stmt
  | mk _ body => body

end Arm

/-- A named function with its parameters and body. -/
structure Function where
  name : String
  params : List String
  body : List Stmt
  deriving Repr

namespace Stmt

/-- The function a statement defines, if it is a definition. -/
def function? : Stmt → Option Function
  | func name params body => some ⟨name, params, body⟩
  | _ => none

/-- The statement is a function definition. -/
def isFunction (s : Stmt) : Bool := s.function?.isSome

end Stmt

/-- The functions defined by the statements of a block itself, in order. -/
def functionsOf (body : List Stmt) : List Function := body.filterMap Stmt.function?

/-- How source texts are read and programs are run. -/
structure Options where
  /-- A trailing expression statement of a function body is its result. -/
  implicitReturn : Bool := false
  /-- The dollar sign is a letter. -/
  dollarIdentifiers : Bool := false
  deriving Repr, DecidableEq

end ScriptLang
