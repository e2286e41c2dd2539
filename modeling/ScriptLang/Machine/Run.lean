import ScriptLang.Machine.Step
import ScriptLang.Program.Parser.Statement

/-!
# Running programs

A run starts in the frame of the program, whose outer frame holds the builtins,
and goes on step by step until nothing is pending. Programs may run forever, so
the number of steps is bounded from outside; a run that was cut short has no
outcome.
-/

namespace ScriptLang

/-- Calls nest this deep unless a run says otherwise. -/
def defaultMaxDepth : Nat := 3000

/-- The frame of the builtins. -/
def builtinFrame : Frame := Builtin.all.map fun b => (b.name, .builtin b)

namespace State

/-- The state before the first step. -/
def initial (o : Options) (program : List Stmt) : State :=
  let s : State :=
    { control := .flow .normal, pending := [], env := [0], depth := 0
      frames := #[builtinFrame], heap := {}, out := "", err := "" }
  enterBody o s (.ofCall ⟨"", [], program⟩ []) [0] program

/-- The state after so many steps of a run. -/
def after (r : Run) (program : List Stmt) : Nat → State
  | 0 => .initial r.options program
  | n + 1 => (after r program n).next r

/-- The state at the end of a run of at most so many steps, if it ends by then. -/
def runFor (r : Run) : Nat → State → Option State
  | 0, _ => none
  | count + 1, s => if s.isOver then some s else runFor r count (s.next r)

end State

/-- Why a run is over before its program is. -/
inductive Abort where
  | error (e : RuntimeError)
  /-- A line could not be written, for this reason. -/
  | io (reason : String)
  deriving Repr, DecidableEq

/-- The reason in words. -/
def Abort.message : Abort → String
  | error e => e.message
  | io reason => "write failed: " ++ reason

/-- Why a finished run was over before its program was, if it was. -/
def State.abort? (s : State) : Option Abort :=
  match s.control with
  | .raise (.error e) => some (.error e)
  | .raise (.thrown v) => some (.error (.thrown (s.heap.text v)))
  | .raise (.io reason) => some (.io reason)
  | _ => none

/-- What a run leaves behind: the two texts it has written, and why it was over before its
program was, if it was. -/
structure Outcome where
  out : String
  err : String
  abort : Option Abort
  deriving Repr, DecidableEq

/-- The error that a run ended with. -/
def Outcome.error (o : Outcome) : Option RuntimeError :=
  match o.abort with
  | some (.error e) => some e
  | _ => none

/-- The outcome of a finished run. -/
def State.outcome (s : State) : Outcome := ⟨s.out, s.err, s.abort?⟩

/-- Run a program for at most so many steps. -/
def Run.interpret (r : Run) (steps : Nat) (program : List Stmt) : Option Outcome :=
  (State.runFor r steps (.initial r.options program)).map State.outcome

/-- Run a program for at most so many steps, with streams that take whatever is written. -/
def interpret (settings : Settings) (steps : Nat) (program : List Stmt) : Option Outcome :=
  Run.interpret { toSettings := settings } steps program

/-- More steps than any machine can make in practice. -/
def stepLimit : Nat := Nat.pow 2 62

end ScriptLang
