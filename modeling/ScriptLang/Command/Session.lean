import ScriptLang.Command.Manual
import ScriptLang.Command.Plan

/-!
# Sessions

The command at work on a file tree: inputs are read from the tree, and the
effects of the plan change the tree and the two output streams until one of them
fails. A failing command says so on the error stream, in one line after whatever
the programs wrote there.
-/

namespace ScriptLang

/-- What the command leaves behind. -/
structure Session where
  tree : Tree
  out : String := ""
  err : String := ""
  deriving Repr, DecidableEq

namespace Session

/-- Do one thing. -/
def act (s : Session) : Effect → Session × Option Failure
  | .print text => ({ s with out := s.out ++ text }, none)
  | .printError text => ({ s with err := s.err ++ text }, none)
  | .makeDirectories p =>
    let (tree, fault) := s.tree.makeDirectories p
    ({ s with tree }, fault.map (.creating p))
  | .write p text =>
    match s.tree.write p text with
    | .ok tree => ({ s with tree }, none)
    | .error fault => (s, some (.writing p fault))

/-- Do several things, until one fails. -/
def actAll (s : Session) : List Effect → Session × Option Failure
  | [] => (s, none)
  | effect :: rest =>
    match s.act effect with
    | (s, none) => s.actAll rest
    | (s, some failure) => (s, some failure)

/-- Carry out a plan. A failure on the way comes before the one it ends in. -/
def carryOut (s : Session) (plan : Plan) : Session × Option Failure :=
  match s.actAll plan.effects with
  | (s, none) => (s, plan.failure)
  | (s, some failure) => (s, some failure)

end Session

/-- Read all inputs, up to the first that cannot be read. -/
def Tree.load (t : Tree) (inputs : List Path) : Except Failure (List Source) :=
  inputs.mapM fun p => ((t.read p).mapError (Failure.reading p)).map (Source.mk p)

/-- The work of an invocation on a tree. -/
def Invocation.perform (i : Invocation) (steps : Nat) (t : Tree) : Session × Option Failure :=
  match t.load i.inputs with
  | .error failure => ({ tree := t }, some failure)
  | .ok sources => ({ tree := t } : Session).carryOut (i.plan steps sources)

/-- The line that reports a failure. -/
def Failure.report (f : Failure) : String := "error: " ++ f.message ++ "\n"

/-- The text that reports wrong arguments. -/
def UsageError.report (e : UsageError) : String := "error: " ++ e.message ++ Manual.advice

/-- A finished command: its exit code, and what it leaves behind. -/
structure Report where
  exit : Nat
  session : Session
  deriving Repr, DecidableEq

/-- The command with its arguments on a tree. -/
def command (steps : Nat) (arguments : List String) (t : Tree) : Report :=
  match Request.ofArguments arguments with
  | .error e => ⟨2, { tree := t, err := e.report }⟩
  | .ok .help => ⟨0, { tree := t, out := Manual.help }⟩
  | .ok .version => ⟨0, { tree := t, out := Manual.version }⟩
  | .ok (.work i) =>
    match i.perform steps t with
    | (s, none) => ⟨0, s⟩
    | (s, some failure) => ⟨1, { s with err := s.err ++ failure.report }⟩

end ScriptLang
