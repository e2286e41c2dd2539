import ScriptLang.Machine.Frames
import ScriptLang.Program.Basic

/-!
# States of a running program

A state says what is done next, what is left to do afterwards, and what has
happened so far. What is left is a stack of pending work: each entry waits for a
value, for the end of a statement, or for the end of a call. Since the stack is
part of the state, nothing that surrounds the current step is hidden.
-/

namespace ScriptLang

/-- How a statement ends when nothing went wrong. -/
inductive Flow where
  | normal
  | break
  | continue
  | returned (v : Value)
  deriving Repr

/-- Why evaluation is abandoned. -/
inductive Unwinding where
  | error (e : RuntimeError)
  | thrown (v : Value)
  /-- A line could not be written, for this reason. No handler catches this. -/
  | io (reason : String)
  deriving Repr

/-- What a handler gets to see of what it catches: a thrown value itself, an error as
its message. -/
def Unwinding.caught? : Unwinding → Option Value
  | .thrown v => some v
  | .error e => some (.str e.message)
  | .io _ => none

/-- What is done next. -/
inductive Control where
  | eval (e : Expr)
  /-- Run statements one after the other. -/
  | exec (body : List Stmt)
  /-- Call a value. The name is for the case that it cannot be called. -/
  | apply (name : Option String) (f : Value) (args : List Value)
  /-- An expression has this value. -/
  | value (v : Value)
  /-- A statement has ended this way. -/
  | flow (f : Flow)
  | raise (u : Unwinding)
  deriving Repr

/-- Work that waits for what is under way. -/
inductive Pending where
  -- waiting for a value
  | unary (op : UnaryOp)
  | binaryRight (op : BinaryOp) (rhs : Expr)
  | binary (op : BinaryOp) (lhs : Value)
  | store (name : String)
  | updateValue (name : String) (op : BinaryOp) (value : Expr)
  | update (name : String) (op : BinaryOp) (old : Value)
  | elementKey (key : Expr) (op : Option BinaryOp) (value : Expr)
  | elementValue (container : Value) (op : Option BinaryOp) (value : Expr)
  | storeElement (container key : Value)
  | updateElement (container key : Value) (op : BinaryOp) (old : Value)
  | callee (name : Option String) (args : List Expr)
  /-- Arguments found so far, last one first, and those still to be evaluated. -/
  | args (name : Option String) (f : Value) (found : List Value) (rest : List Expr)
  | indexKey (key : Expr)
  | index (container : Value)
  | sliceStart (start stop : Expr)
  | sliceStop (container : Value) (stop : Expr)
  | slice (container start : Value)
  | mapKey (found : List (Value × Value)) (value : Expr) (rest : List (Expr × Expr))
  | mapValue (found : List (Value × Value)) (key : Value) (rest : List (Expr × Expr))
  | listItem (found : List Value) (rest : List Expr)
  | discard
  | branch (body : List Stmt) (rest : Alternative)
  | loopTest (test : Expr) (body : List Stmt)
  | iterable (header : LoopHeader) (body : List Stmt)
  | subject (arms : List Arm)
  | pattern (subject : Value) (patterns : List Expr) (body : List Stmt) (rest : List Arm)
  | result
  | assertion (line : Nat)
  | thrown
  -- waiting for the end of a statement
  | statements (rest : List Stmt)
  /-- The last statement of a function's body, an expression whose value is the result. -/
  | trailing (last : Expr)
  | loopBody (test : Expr) (body : List Stmt)
  /-- The values that the remaining rounds assign to the names. -/
  | rounds (names : List String) (rest : List (List Value)) (body : List Stmt)
  | handler (name : String) (body : List Stmt)
  -- waiting for the end of a call
  | caller (env : Env)
  deriving Repr

/-- The state of a run. -/
structure State where
  control : Control
  pending : List Pending
  env : Env
  /-- The number of calls in progress. -/
  depth : Nat
  frames : Frames
  heap : Heap
  out : String
  err : String

/-- How a program is run. -/
structure Settings where
  /-- The name of the file, which a failed assertion reports. -/
  file : String
  options : Options
  /-- A call at this depth fails. -/
  maxDepth : Nat

/-- The streams that a program writes to. -/
inductive Stream where
  | out
  | err
  deriving Repr, DecidableEq

/-- The answer of a stream that does not take a line: what it has taken of it, and why
no more. -/
structure Refusal where
  taken : String
  reason : String
  deriving Repr, DecidableEq

/-- What stays the same during a run: how the program is run, and how the streams take
what it writes. -/
structure Run extends Settings where
  /-- What a stream answers to a line, after these texts were written to the two streams;
  nothing if it takes the line. -/
  refusal? (stream : Stream) (out err line : String) : Option Refusal := none

end ScriptLang
