import ScriptLang.Command.Arguments
import ScriptLang.Command.Tree
import ScriptLang.Machine.Run
import ScriptLang.Program.Dump
import ScriptLang.Target.Module

/-!
# Plans

Once the inputs are read, everything an invocation will do follows from their
texts: a list of effects and perhaps the failure they end in. Modules are
planned only when all inputs compile, so that one refused input keeps the others
from being written. Programs run one after the other, and the first that fails
is the last; running them plans nothing but output.
-/

namespace ScriptLang

/-- An input that was read. Its name in messages is its path as written. -/
structure Source where
  path : Path
  text : String
  deriving Repr, DecidableEq

/-- Something the command does to the world. -/
inductive Effect where
  | print (text : String)
  | printError (text : String)
  | makeDirectories (p : Path)
  | write (p : Path) (text : String)
  deriving Repr, DecidableEq

/-- Why the command fails. -/
inductive Failure where
  | reading (p : Path) (fault : Fault)
  | compiling (p : Path) (reason : Diagnostic)
  /-- A program that should run was refused. -/
  | refused (p : Path) (reason : Diagnostic)
  | running (p : Path) (reason : Abort)
  /-- A program took more steps than it was given. -/
  | unfinished (p : Path)
  | creating (p : Path) (fault : Fault)
  | writing (p : Path) (fault : Fault)
  deriving Repr

/-- What was being done, to what, and why it failed. -/
def Failure.message : Failure → String
  | reading p fault => "Reading " ++ p.text ++ ": " ++ fault.message
  | compiling p reason => "Compiling " ++ p.text ++ ": " ++ reason.message p.text
  | refused p reason => "Running " ++ p.text ++ ": " ++ reason.message p.text
  | running p reason => "Running " ++ p.text ++ ": " ++ reason.message
  | unfinished p => "Running " ++ p.text ++ ": too many steps"
  | creating p fault => "Creating " ++ p.text ++ ": " ++ fault.message
  | writing p fault => "Writing " ++ p.text ++ ": " ++ fault.message

/-- Effects, in order, and the failure after them. -/
structure Plan where
  effects : List Effect
  failure : Option Failure
  deriving Repr

namespace Source

/-- The text that is read as a program. -/
def programText (s : Source) : String := withFinalNewline s.text

/-- Compile an input. -/
def compile (options : Options) (s : Source) : Except Failure Compiled :=
  (ScriptLang.compile options s.path.text s.programText).mapError (.compiling s.path)

/-- The plan for running one input. The streams of an invocation take whatever is written. -/
def run (options : Options) (steps : Nat) (s : Source) : Plan :=
  match parse options s.programText with
  | .error reason => ⟨[], some (.refused s.path reason)⟩
  | .ok program =>
    match interpret ⟨s.path.text, options, defaultMaxDepth⟩ steps program with
    | none => ⟨[], some (.unfinished s.path)⟩
    | some outcome =>
      ⟨[.print outcome.out, .printError outcome.err], outcome.abort.map (.running s.path)⟩

end Source

namespace Plan

/-- The plan for running inputs in order. An input after one that fails is not
looked at. -/
def running (options : Options) (steps : Nat) : List Source → Plan
  | [] => ⟨[], none⟩
  | s :: rest =>
    match s.run options steps with
    | ⟨effects, some failure⟩ => ⟨effects, some failure⟩
    | ⟨effects, none⟩ =>
      let later := running options steps rest
      ⟨effects ++ later.effects, later.failure⟩

end Plan

namespace Invocation

/-- There is one input. -/
def single (i : Invocation) : Bool := i.inputs.length == 1

/-- The file or directory that modules go to. -/
def target (i : Invocation) : Path :=
  i.output.getD (if i.single then ⟨"a.mjs"⟩ else ⟨"."⟩)

/-- The files for one compiled input. -/
def outputs (i : Invocation) (input : Path) (c : Compiled) : List Effect :=
  let place := Path.moduleFor i.target i.single input
  .write place c.moduleText :: if i.dumps then [.write place.dumpBeside (dump c.program)] else []

/-- The plan for writing the modules of all inputs. -/
def writing (i : Invocation) (sources : List Source) : Plan :=
  match sources.mapM (Source.compile i.options) with
  | .error failure => ⟨[], some failure⟩
  | .ok compiled =>
    let files := (sources.zip compiled).flatMap fun (s, c) => i.outputs s.path c
    ⟨if i.single then files else .makeDirectories i.target :: files, none⟩

/-- The plan for the inputs that were read. -/
def plan (i : Invocation) (steps : Nat) (sources : List Source) : Plan :=
  if i.runs then .running i.options steps sources else i.writing sources

end Invocation

end ScriptLang
