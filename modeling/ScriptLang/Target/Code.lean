import ScriptLang.Program.Basic
import ScriptLang.Target.Name

/-!
# Emitted code

The tree of the emitted module, between the program and its text. Parentheses
are nodes of their own, so that writing the tree out decides nothing. Variables
hold names as they are written; what the compiler adds on its own account is a
helper, a label or a fixed form, never a variable.
-/

namespace ScriptLang.Target

/-- Emitted expressions. -/
inductive Code where
  /-- A variable of the program, under its emitted name. -/
  | var (name : String)
  /-- A number or string, spelled out. -/
  | literal (text : String)
  | undefined
  | group (inner : Code)
  | unary (op : UnaryOp) (operand : Code)
  | binary (op : BinaryOp) (lhs rhs : Code)
  | assign (op : Option BinaryOp) (target value : Code)
  | call (callee : Code) (args : List Code)
  | helper (h : Helper) (args : List Code)
  /-- The function that joins the old value with a new one. -/
  | updater (op : BinaryOp) (value : Code)
  | array (items : List Code)
  | newMap (entries : List (Code × Code))
  deriving Repr

/-- The keyword of a jump. -/
inductive Jump where
  | break
  | continue
  deriving Repr, DecidableEq

mutual

/-- Emitted statements. -/
inductive Item where
  /-- A parameter that no argument was given for becomes null. -/
  | guard (param : String)
  | declare (name : String)
  | run (e : Code)
  | cond (test : Code) (body : List Item) (rest : Branch)
  | whileLoop (label : Nat) (test : Code) (body : List Item)
  | doWhile (label : Nat) (body : List Item) (test : Code)
  /-- The header holds emitted names. -/
  | forOf (label : Nat) (header : LoopHeader) (iterable : Code) (body : List Item)
  | switch (subject : Code) (arms : List Case)
  | function (name : String) (params : List String) (body : List Item)
  /-- A function of a nested block, assigned to the local of its name. -/
  | assignFunction (name : String) (params : List String) (body : List Item)
  | ret (value : Code)
  /-- Jumps name their loop, since a bare one would leave the enclosing switch. -/
  | jump (keyword : Jump) (label : Option Nat)
  | throw (value : Code)
  | tryCatch (body : List Item) (name : String) (handler : List Item)
  deriving Repr

/-- What follows the body of a condition. -/
inductive Branch where
  | none
  | otherwise (body : List Item)
  | elseIf (test : Code) (body : List Item) (rest : Branch)
  deriving Repr

/-- One arm of a switch. Without patterns it is the default. -/
inductive Case where
  | mk (patterns : List Code) (body : List Item)
  deriving Repr

end

end ScriptLang.Target
