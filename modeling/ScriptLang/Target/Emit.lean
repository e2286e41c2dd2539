import ScriptLang.Program.Scope
import ScriptLang.Target.Layout
import ScriptLang.Text.Quoted

/-!
# From programs to emitted code

Every body begins with guards for its parameters and one declaration for each of
its locals, so that each name is declared before a statement touches it. Loops
are numbered in the order in which they are written. A function at the top of a
body is a declaration; one in a nested block is assigned to its local at the
start of that block.

An operator as the operand of another one is put in parentheses, whatever their
precedence.
-/

namespace ScriptLang

namespace Expr

/-- Operators and assignments: what needs parentheses as an operand. -/
def isOperation : Expr → Bool
  | unary .. | binary .. | assign .. => true
  | _ => false

/-- The code of an expression as an operand. -/
def asOperand (e : Expr) (code : Target.Code) : Target.Code :=
  if e.isOperation then .group code else code

end Expr

namespace Target

/-- The code of a binary operator: most are the target's own. -/
def binaryCode (op : BinaryOp) (lhs rhs lhsOperand rhsOperand : Code) : Code :=
  match op with
  | .eq => .helper .equal [lhs, rhs]
  | .ne => .unary .not (.helper .equal [lhs, rhs])
  | .floorDiv => .helper .floor [.binary .div lhsOperand rhsOperand]
  | op => .binary op lhsOperand rhsOperand

mutual

/-- The code of an expression where it needs no parentheses. -/
def code : Expr → Code
  | .ident name => .var (mangle name)
  | .number text => .literal text
  | .str text => .literal text
  | .omitted => .undefined
  | .unary op operand => .unary op (operand.asOperand (code operand))
  | .binary op lhs rhs =>
    let l := code lhs
    let r := code rhs
    binaryCode op l r (lhs.asOperand l) (rhs.asOperand r)
  | .assign none (.index target index) value =>
    .helper .set [code target, code index, code value]
  | .assign (some op) (.index target index) value =>
    .helper .update [code target, code index, .updater op (value.asOperand (code value))]
  | .assign op target value => .assign op (target.asOperand (code target)) (code value)
  | .call callee args => .call (callee.asOperand (code callee)) (codes args)
  | .index target index => .helper .get [code target, code index]
  | .slice target start stop => .helper .slice [code target, code start, code stop]
  | .map entries => .newMap (entryCodes entries)
  | .list items => .array (codes items)

/-- The codes of expressions one after the other. -/
def codes : List Expr → List Code
  | [] => []
  | e :: rest => code e :: codes rest

/-- The codes of the entries of a map. -/
def entryCodes : List (Expr × Expr) → List (Code × Code)
  | [] => []
  | (key, value) :: rest => (code key, code value) :: entryCodes rest

end

/-- The header of a loop under its emitted names. -/
def emittedHeader : LoopHeader → LoopHeader
  | .single name => .single (mangle name)
  | .keyed key value => .keyed (mangle key) (mangle value)

/-- What emission depends on besides the program: the name of the file, which an
assertion reports, and whether bodies return their last expression. -/
structure Setting where
  file : String
  implicitReturn : Bool

/-- Emission counts the loops it has written. -/
abbrev Emission := StateM Nat

/-- The number of a new loop. -/
def newLabel : Emission Nat := do
  let n ← get
  set (n + 1)
  return n + 1

/-- The guards and declarations at the start of a body. -/
def prologue (params : List String) (body : List Stmt) : List Item :=
  params.map (fun p => .guard (mangle p)) ++
    (locals params body).map fun name => .declare (mangle name)

/-- A nested block: its functions, then its other statements. -/
def inBlock (functions others : Emission (List Item)) : Emission (List Item) := do
  let items ← functions
  return items ++ (← others)

mutual

/-- The code of a statement inside the innermost loop `loop`. -/
def emit (s : Setting) (loop : Option Nat) : Stmt → Emission (List Item)
  | .expr e => return [.run (code e)]
  | .cond test body rest => do
    let body ← inBlock (emitFunctions s body) (emitOthers s loop body)
    return [.cond (code test) body (← emitBranch s loop rest)]
  | .whileLoop test body => do
    let label ← newLabel
    let body ← inBlock (emitFunctions s body) (emitOthers s (some label) body)
    return [.whileLoop label (code test) body]
  | .doWhile test body => do
    let label ← newLabel
    let body ← inBlock (emitFunctions s body) (emitOthers s (some label) body)
    return [.doWhile label body (code test)]
  | .forEach header iterable body => do
    let label ← newLabel
    let body ← inBlock (emitFunctions s body) (emitOthers s (some label) body)
    return [.forOf label (emittedHeader header) (code iterable) body]
  | .select subject arms => return [.switch (code subject) (← emitArms s loop arms)]
  | .func name params body => do
    let body' ← emitBody s s.implicitReturn body
    return [.function (mangle name) (params.map mangle) (prologue params body ++ body')]
  | .ret value => return [.ret (code value)]
  | .outer _ => return []
  | .break => return [.jump .break loop]
  | .continue => return [.jump .continue loop]
  | .assert test line =>
    let place := Text.quoted (s.file ++ ":" ++ toString line)
    return [.run (.helper .assert [code test, .literal place])]
  | .throw value => return [.throw (code value)]
  | .attempt body name handler => do
    let body ← inBlock (emitFunctions s body) (emitOthers s loop body)
    let handler ← inBlock (emitFunctions s handler) (emitOthers s loop handler)
    return [.tryCatch body (mangle name) handler]

/-- The code of what follows the body of a condition. -/
def emitBranch (s : Setting) (loop : Option Nat) : Alternative → Emission Branch
  | .none => return .none
  | .otherwise body => do
    return .otherwise (← inBlock (emitFunctions s body) (emitOthers s loop body))
  | .elif test body rest => do
    let body ← inBlock (emitFunctions s body) (emitOthers s loop body)
    return .elseIf (code test) body (← emitBranch s loop rest)

/-- The code of the arms of a selection. -/
def emitArms (s : Setting) (loop : Option Nat) : List Arm → Emission (List Case)
  | [] => return []
  | .mk patterns body :: rest => do
    let body ← inBlock (emitFunctions s body) (emitOthers s loop body)
    return .mk (codes patterns) body :: (← emitArms s loop rest)

/-- The functions of a nested block. -/
def emitFunctions (s : Setting) : List Stmt → Emission (List Item)
  | [] => return []
  | .func name params body :: rest => do
    let body' ← emitBody s s.implicitReturn body
    let item := Item.assignFunction (mangle name) (params.map mangle)
      (prologue params body ++ body')
    return item :: (← emitFunctions s rest)
  | _ :: rest => emitFunctions s rest

/-- The statements of a nested block other than its functions. -/
def emitOthers (s : Setting) (loop : Option Nat) : List Stmt → Emission (List Item)
  | [] => return []
  | stmt :: rest => do
    let items ← if stmt.isFunction then pure [] else emit s loop stmt
    return items ++ (← emitOthers s loop rest)

/-- The statements of a body, outside every loop. With `returns` a trailing
expression statement becomes the result. -/
def emitBody (s : Setting) (returns : Bool) : List Stmt → Emission (List Item)
  | [] => return []
  | [.expr e] => return [if returns then .ret (code e) else .run (code e)]
  | stmt :: rest => do
    let items ← emit s none stmt
    return items ++ (← emitBody s returns rest)

end

/-- The code of a whole program. Its own last statement is never returned. -/
def emitProgram (s : Setting) (program : List Stmt) : List Item :=
  prologue [] program ++ ((emitBody s false program).run 0).1

end Target

/-- The emitted text of a program, without the preamble. -/
def generate (options : Options) (file : String) (program : List Stmt) : String :=
  Target.render (Target.emitProgram ⟨file, options.implicitReturn⟩ program)

end ScriptLang
