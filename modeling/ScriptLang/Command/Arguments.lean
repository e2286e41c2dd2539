import ScriptLang.Command.Path
import ScriptLang.Program.Basic

/-!
# Arguments

The words after the name of the command. Inputs and options may come in any
order; after `--` every word is an input. An option is checked when the next one
begins or the words end, so a later word that is no option at all, or a flag
that was given a value, is reported before a fault in what is still open.
-/

namespace ScriptLang

/-- What the command is asked to do with its inputs. -/
structure Invocation where
  inputs : List Path
  output : Option Path
  options : Options
  /-- Also write the program tree of every input. -/
  dumps : Bool
  /-- Run the inputs instead of writing modules. -/
  runs : Bool
  deriving Repr, DecidableEq

/-- A well-formed list of arguments asks for a text about the command or for work. -/
inductive Request where
  | help
  | version
  | work (invocation : Invocation)
  deriving Repr, DecidableEq

/-- Options that take no value. -/
inductive Flag where
  | implicitReturn
  | dollarIdentifiers
  | dumps
  | runs
  deriving Repr, DecidableEq

/-- Everything that begins with a dash and has a meaning. -/
inductive Switch where
  | flag (f : Flag)
  | output
  | help
  | version
  deriving Repr, DecidableEq

namespace Switch

/-- The switch a word after two dashes names. Names are never shortened. -/
def ofLong? : String → Option Switch
  | "implicit-return" => some (.flag .implicitReturn)
  | "dollar-identifiers" => some (.flag .dollarIdentifiers)
  | "emit-ast" => some (.flag .dumps)
  | "run" => some (.flag .runs)
  | "output" => some .output
  | "help" => some .help
  | "version" => some .version
  | _ => none

/-- The switch a letter after one dash names. -/
def ofShort? : Char → Option Switch
  | 'o' => some .output
  | 'h' => some .help
  | 'V' => some .version
  | _ => none

/-- A switch as messages show it. -/
def spelling : Switch → String
  | flag .implicitReturn => "--implicit-return"
  | flag .dollarIdentifiers => "--dollar-identifiers"
  | flag .dumps => "--emit-ast"
  | flag .runs => "--run"
  | output => "--output <OUTPUT>"
  | help => "--help"
  | version => "--version"

end Switch

/-- Why a list of arguments is refused. -/
inductive UsageError where
  | unknown (word : String)
  | unwantedValue (switch : Switch) (value : String)
  | repeated (switch : Switch)
  | missingOutput
  | emptyOutput
  | emptyInput
  | noInput
  deriving Repr, DecidableEq

namespace UsageError

/-- The inputs as messages show them. -/
def inputsSpelling : String := "<INPUTS>..."

/-- The error in words. A value that is empty counts as none. -/
def message : UsageError → String
  | unknown word => "unexpected argument '" ++ word ++ "' found"
  | unwantedValue switch value =>
    "unexpected value '" ++ value ++ "' for '" ++ switch.spelling ++
      "' found; no more were expected"
  | repeated switch => "the argument '" ++ switch.spelling ++ "' cannot be used multiple times"
  | missingOutput | emptyOutput =>
    "a value is required for '" ++ Switch.output.spelling ++ "' but none was supplied"
  | emptyInput => "a value is required for '" ++ inputsSpelling ++ "' but none was supplied"
  | noInput => "the following required arguments were not provided:\n  " ++ inputsSpelling

end UsageError

/-- One argument, taken by itself. -/
inductive Word where
  | plain (text : String)
  /-- Two dashes alone. -/
  | terminator
  | switch (s : Switch) (value : Option String)
  | unknown (text : String)
  deriving Repr, DecidableEq

namespace Word

/-- The text before the first equals sign, and the text after it if there is one. -/
def splitValue (cs : List Char) : String × Option String :=
  match cs.dropWhile (· ≠ '=') with
  | [] => (String.ofList cs, none)
  | _ :: value => (String.ofList (cs.takeWhile (· ≠ '=')), some (String.ofList value))

/-- The value in the same word as a letter; one equals sign may set it off. -/
def attachedValue : List Char → Option String
  | [] => none
  | '=' :: value => some (String.ofList value)
  | value => some (String.ofList value)

/-- Letters after `h` or `V` are never looked at, since those end the reading. A
dash alone is a plain word. -/
def ofText (text : String) : Word :=
  match text.toList with
  | ['-', '-'] => .terminator
  | '-' :: '-' :: cs =>
    let (name, value) := splitValue cs
    match Switch.ofLong? name with
    | some s => .switch s value
    | none => .unknown ("--" ++ name)
  | '-' :: letter :: cs =>
    match Switch.ofShort? letter with
    | some .output => .switch .output (attachedValue cs)
    | some s => .switch s none
    | none => .unknown (String.ofList ['-', letter])
  | _ => .plain text

end Word

/-- What was read last and is not checked yet. -/
inductive Unchecked where
  | nothing
  | inputs (texts : List String)
  | output (value : Option String)
  deriving Repr, DecidableEq

/-- What was read so far. -/
structure Draft where
  inputs : List String := []
  output : Option String := none
  flags : List Flag := []
  last : Unchecked := .nothing
  deriving Repr, DecidableEq

namespace Draft

/-- Check what is still open and take it over. -/
def settle (d : Draft) : Except UsageError Draft :=
  match d.last with
  | .nothing => .ok d
  | .inputs texts =>
    if "" ∈ texts then .error .emptyInput
    else .ok { d with inputs := d.inputs ++ texts, last := .nothing }
  | .output none => .error .missingOutput
  | .output (some value) =>
    if d.output.isSome then .error (.repeated .output)
    else if value = "" then .error .emptyOutput
    else .ok { d with output := some value, last := .nothing }

/-- Read an input. -/
def addInput (d : Draft) (text : String) : Except UsageError Draft :=
  match d.last with
  | .inputs texts => .ok { d with last := .inputs (texts ++ [text]) }
  | _ => d.settle.map fun d => { d with last := .inputs [text] }

/-- Read a word that is no switch: the value of an output option that has none
yet, or an input. -/
def addPlain (d : Draft) (text : String) : Except UsageError Draft :=
  match d.last with
  | .output none => .ok { d with last := .output (some text) }
  | _ => d.addInput text

/-- Read an output option. A value in the same word is checked at once. -/
def addOutput (d : Draft) (value : Option String) : Except UsageError Draft := do
  let d ← d.settle
  let d : Draft := { d with last := .output value }
  if value.isSome then d.settle else return d

/-- Read a flag. -/
def addFlag (d : Draft) (f : Flag) : Except UsageError Draft := do
  let d ← d.settle
  if f ∈ d.flags then throw (.repeated (.flag f)) else return { d with flags := d.flags ++ [f] }

/-- The request at the end of the words. -/
def finish (d : Draft) : Except UsageError Request := do
  let d ← d.settle
  if d.inputs = [] then throw .noInput
  return .work
    { inputs := d.inputs.map Path.mk
      output := d.output.map Path.mk
      options :=
        { implicitReturn := .implicitReturn ∈ d.flags
          dollarIdentifiers := .dollarIdentifiers ∈ d.flags }
      dumps := .dumps ∈ d.flags
      runs := .runs ∈ d.flags }

/-- Read the remaining words. -/
def read (d : Draft) : List String → Except UsageError Request
  | [] => d.finish
  | text :: rest =>
    match Word.ofText text with
    | .terminator => rest.foldlM addInput d >>= finish
    | .plain text => do read (← d.addPlain text) rest
    | .unknown text => .error (.unknown text)
    | .switch .output value => do read (← d.addOutput value) rest
    | .switch s (some value) => .error (.unwantedValue s value)
    | .switch (.flag f) none => do read (← d.addFlag f) rest
    | .switch .help none => d.settle.map fun _ => .help
    | .switch .version none => d.settle.map fun _ => .version

end Draft

/-- What a list of arguments asks for. -/
def Request.ofArguments (arguments : List String) : Except UsageError Request :=
  Draft.read {} arguments

end ScriptLang
