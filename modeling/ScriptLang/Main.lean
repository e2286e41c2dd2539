import ScriptLang.Command.Session

/-!
# The program

The command on the files of the machine it runs on. What to read, what to do
then and what to say is settled by the request and the plan; here the reading
and the effects happen.
-/

namespace ScriptLang

/-- The reason the operating system gives, with its number where there is one. -/
def Fault.ofError : IO.Error → Fault
  | .noFileOrDirectory _ code details | .alreadyExists _ code details
  | .inappropriateType _ code details | .permissionDenied _ code details
  | .invalidArgument _ code details | .resourceExhausted _ code details
  | .noSuchThing _ code details =>
    .other (details ++ " (os error " ++ toString code ++ ")")
  | e => .other (toString e)

/-- Do something with a file, and name what was done if it fails. -/
def attempt (failure : Fault → Failure) (action : IO α) : IO (Except Failure α) := do
  try
    return .ok (← action)
  catch e =>
    return .error (failure (.ofError e))

/-- Read all inputs, up to the first that cannot be read. -/
def loadAll : List Path → IO (Except Failure (List Source))
  | [] => return .ok []
  | p :: rest => do
    match ← attempt (.reading p) (IO.FS.readFile p.text) with
    | .error failure => return .error failure
    | .ok text => return (← loadAll rest).map (⟨p, text⟩ :: ·)

/-- Do one thing. -/
def Effect.act : Effect → IO (Except Failure Unit)
  | .print text => do
    IO.print text
    return .ok ()
  | .printError text => do
    IO.eprint text
    return .ok ()
  | .makeDirectories p => attempt (.creating p) (IO.FS.createDirAll p.text)
  | .write p text => attempt (.writing p) (IO.FS.writeFile p.text text)

/-- Do several things, until one fails. -/
def actInOrder : List Effect → IO (Option Failure)
  | [] => return none
  | effect :: rest => do
    match ← effect.act with
    | .error failure => return some failure
    | .ok () => actInOrder rest

/-- The work of an invocation. -/
def Invocation.carryOut (i : Invocation) : IO (Option Failure) := do
  match ← loadAll i.inputs with
  | .error failure => return some failure
  | .ok sources =>
    let plan := i.plan stepLimit sources
    return (← actInOrder plan.effects) <|> plan.failure

end ScriptLang

open ScriptLang in
/-- The command line. -/
def main (arguments : List String) : IO UInt32 := do
  match Request.ofArguments arguments with
  | .error e =>
    IO.eprint e.report
    return 2
  | .ok .help =>
    IO.print Manual.help
    return 0
  | .ok .version =>
    IO.print Manual.version
    return 0
  | .ok (.work i) =>
    match ← i.carryOut with
    | none => return 0
    | some failure =>
      IO.eprint failure.report
      return 1
