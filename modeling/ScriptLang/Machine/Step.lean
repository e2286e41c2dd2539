import ScriptLang.Builtin.Call
import ScriptLang.Machine.State
import ScriptLang.Machine.Unquote
import ScriptLang.Program.Scope

/-!
# Steps of a running program

`next` makes one step, and every step is one case: an expression or a statement
is taken apart and the rest of it becomes pending, or the work on top of the
stack goes on with what it has been waiting for. A run is over when nothing is
pending.

A call swaps the environment for the callee's and leaves the caller's on the
stack. Whatever ends the call, be it the end of its body, a `return` or an
unwinding, meets that entry and puts the caller's environment back.
-/

namespace ScriptLang

/-- The words that stand for a value wherever they are read. -/
def constant? (name : String) : Option Value :=
  if name = "null" then some .null
  else if name = "true" then some (.bool true)
  else if name = "false" then some (.bool false)
  else none

namespace Expr

/-- The name of a variable. -/
def name? : Expr → Option String
  | ident name => some name
  | _ => none

end Expr

/-- The parameters with their arguments. Missing arguments are null and arguments
in excess are dropped. -/
def argumentBindings : List String → List Value → List (String × Value)
  | [], _ => []
  | p :: params, [] => (p, .null) :: argumentBindings params []
  | p :: params, v :: args => (p, v) :: argumentBindings params args

/-- The frame of a call on entry: parameters, then locals, which are null. -/
def Frame.ofCall (f : Function) (args : List Value) : Frame :=
  Frame.bindAll []
    (argumentBindings f.params args ++ (locals f.params f.body).map fun name => (name, .null))

namespace State

/-- Go on with something else. -/
def goto (s : State) (c : Control) : State := { s with control := c }

/-- Evaluate an expression for the sake of some pending work. -/
def await (s : State) (p : Pending) (e : Expr) : State :=
  { s with control := .eval e, pending := p :: s.pending }

/-- The expression under way has a value. -/
def give (s : State) (v : Value) : State := s.goto (.value v)

/-- The statement under way is over. -/
def finish (s : State) : State := s.goto (.flow .normal)

/-- Raise an error. -/
def fail (s : State) (e : RuntimeError) : State := s.goto (.raise (.error e))

/-- The value of a result, or its error. -/
def giveResult (s : State) (r : Except RuntimeError Value) : State :=
  match r with
  | .ok v => s.give v
  | .error e => s.fail e

/-- The value of a product, which gets its place in the heap first. -/
def produce (s : State) (p : Product) : State :=
  match p with
  | .value v => s.give v
  | .list items =>
    { s with control := .value s.heap.nextList, heap := s.heap.addList items }

/-- A new map as the value. -/
def produceMap (s : State) (entries : List (Value × Value)) : State :=
  { s with control := .value s.heap.nextMap, heap := s.heap.addMap entries }

/-- Assign to a variable and go on; one that is bound nowhere is reported. While the
frames change, the state does without them, so that they are changed in place. -/
def assign (s : State) (name : String) (v : Value) (andThen : State → State) : State :=
  let frames := s.frames
  let s := { s with frames := #[] }
  match frames.assign s.env name v with
  | (frames, true) => andThen { s with frames }
  | (frames, false) => { s with frames }.fail (.undefined name)

/-- Store into a container. The stored value is the value of the assignment. -/
def store (s : State) (container key v : Value) : State :=
  match s.heap.place container key with
  | .ok p => { s with control := .value v, heap := s.heap.write p v }
  | .error e => s.fail e

/-- Assign the functions of a nested block to the locals of their names, then run
the block. -/
def enter (s : State) (body : List Stmt) : List Function → State
  | [] => s.goto (.exec body)
  | f :: rest =>
    s.assign f.name s.heap.nextClosure fun s =>
      enter { s with heap := s.heap.addClosure f s.env } body rest

/-- Run a nested block. -/
def enterBlock (s : State) (body : List Stmt) : State := s.enter body (functionsOf body)

/-- Bind the functions at the top of a body in the frame `id` of that body. -/
def define (s : State) (id : Nat) : List Function → State
  | [] => s
  | f :: rest =>
    let v := s.heap.nextClosure
    define { s with
      frames := s.frames.bind id f.name v
      heap := s.heap.addClosure f s.env } id rest

/-- Run the statements of a body. Under implicit return, an expression statement at the
end of a function's body is kept for its value. The program itself runs at depth zero, and
its last statement is like any other. -/
def execBody (o : Options) (s : State) (body : List Stmt) : State :=
  match body.getLast? with
  | some (.expr last) =>
    if o.implicitReturn = true ∧ s.depth ≠ 0 then
      { s with control := .exec body.dropLast, pending := .trailing last :: s.pending }
    else s.goto (.exec body)
  | _ => s.goto (.exec body)

/-- Run a body in a new frame below the chain `outer`. -/
def enterBody (o : Options) (s : State) (frame : Frame) (outer : Env) (body : List Stmt) : State :=
  let id := s.frames.size
  let s := { s with env := id :: outer, frames := s.frames.push frame }
  execBody o (s.define id (functionsOf body)) body

/-! ## Taking syntax apart -/

/-- Begin to evaluate an expression. -/
def eval (s : State) : Expr → State
  | .ident name =>
    match constant? name with
    | some v => s.give v
    | none =>
      match s.frames.lookup s.env name with
      | some v => s.give v
      | none => s.fail (.undefined name)
  | .number text =>
    match Number.literal? text.toList with
    | some x => s.give (.num x)
    | none => s.fail (.misuse .readNumber text)
  | .str text => s.give (.str (unquote text))
  | .omitted => s.give .null
  | .unary op operand => s.await (.unary op) operand
  | .binary op lhs rhs => s.await (.binaryRight op rhs) lhs
  | .assign none (.ident name) value => s.await (.store name) value
  | .assign (some op) (.ident name) value => s.await (.updateValue name op value) (.ident name)
  | .assign op (.index target key) value => s.await (.elementKey key op value) target
  | .assign .. => s.fail (.misuse .assignTo "expression")
  | .call callee args => s.await (.callee callee.name? args) callee
  | .index target key => s.await (.indexKey key) target
  | .slice target start stop => s.await (.sliceStart start stop) target
  | .map [] => s.produceMap []
  | .map ((key, value) :: rest) => s.await (.mapKey [] value rest) key
  | .list [] => s.produce (.list #[])
  | .list (item :: rest) => s.await (.listItem [] rest) item

/-- Go on with what follows the body of a condition. -/
def alternative (s : State) : Alternative → State
  | .none => s.finish
  | .otherwise body => s.enterBlock body
  | .elif test body rest => s.await (.branch body rest) test

/-- Go on with the first arm that may take the subject: one without patterns does,
another one after its next pattern is evaluated. -/
def selectArm (s : State) (subject : Value) : List Arm → State
  | [] => s.finish
  | .mk [] body :: _ => s.enterBlock body
  | .mk (p :: patterns) body :: rest => s.await (.pattern subject patterns body rest) p

/-- Assign the values of a round to the names of its loop, then run the body. -/
def startRound (s : State) (body : List Stmt) : List (String × Value) → State
  | [] => s.enterBlock body
  | (name, v) :: rest => s.assign name v fun s => startRound s body rest

/-- Go on with the next round of a loop over values; the later ones wait for its end. -/
def nextRound (s : State) (names : List String) (body : List Stmt) :
    List (List Value) → State
  | [] => s.finish
  | values :: rest =>
    { s with pending := .rounds names rest body :: s.pending }.startRound body (names.zip values)

/-- The values that each round of a loop assigns to the names of its header. -/
def roundsOver (s : State) (header : LoopHeader) (v : Value) :
    Except RuntimeError (List (List Value)) :=
  match header with
  | .single _ => (s.heap.visited v).map fun items => items.map fun item => [item]
  | .keyed .. => (s.heap.visitedEntries v).map fun entries => entries.map fun e => [e.1, e.2]

/-- Begin a statement. -/
def begin (s : State) : Stmt → State
  | .expr e => s.await .discard e
  | .cond test body rest => s.await (.branch body rest) test
  | .whileLoop test body => s.await (.loopTest test body) test
  | .doWhile test body =>
    { s with pending := .loopBody test body :: s.pending }.enterBlock body
  | .forEach header iterable body => s.await (.iterable header body) iterable
  | .select subject arms => s.await (.subject arms) subject
  | .func .. | .outer _ => s.finish
  | .ret value => s.await .result value
  | .break => s.goto (.flow .break)
  | .continue => s.goto (.flow .continue)
  | .assert test line => s.await (.assertion line) test
  | .throw value => s.await .thrown value
  | .attempt body name handler =>
    { s with pending := .handler name handler :: s.pending }.enterBlock body

/-- Run the first of some statements; the others wait for its end. -/
def exec (s : State) : List Stmt → State
  | [] => s.finish
  | stmt :: rest => { s with pending := .statements rest :: s.pending }.begin stmt

/-! ## Calls -/

/-- Call a function of the program. -/
def callClosure (r : Run) (s : State) (c : Closure) (args : List Value) : State :=
  if r.maxDepth ≤ s.depth then s.fail .stackOverflow
  else
    let s := { s with pending := .caller s.env :: s.pending, depth := s.depth + 1 }
    enterBody r.options s (.ofCall c.function args) c.env c.function.body

/-- The texts of printed values, with spaces between them and a line feed at the end. -/
def printed (s : State) (args : List Value) : String :=
  String.intercalate " " (args.map s.heap.text) ++ "\n"

/-- Add to what was written to a stream. -/
def append (s : State) (stream : Stream) (text : String) : State :=
  match stream with
  | .out => { s with out := s.out ++ text }
  | .err => { s with err := s.err ++ text }

/-- Write a line to a stream. A stream that does not take all of it ends the run. -/
def write (r : Run) (s : State) (stream : Stream) (line : String) : State :=
  match r.refusal? stream s.out s.err line with
  | none => (s.append stream line).give .null
  | some refusal => (s.append stream refusal.taken).goto (.raise (.io refusal.reason))

/-- Call a builtin. One that never answers leaves the state as it is. -/
def callBuiltin (r : Run) (s : State) (b : Builtin) (args : List Value) : State :=
  match b with
  | .print => write r s .out (s.printed args)
  | .eprint => write r s .err (s.printed args)
  | b =>
    match b.call args s.heap with
    | .returned p => s.produce p
    | .failed e => s.fail e
    | .endless => s

/-- Call a value. -/
def apply (r : Run) (s : State) (name : Option String) (f : Value) (args : List Value) : State :=
  match f with
  | .closure id =>
    match s.heap.closures[id]? with
    | some c => callClosure r s c args
    | none => s.fail (.notCallable (name.getD f.typeName))
  | .builtin b => callBuiltin r s b args
  | v => s.fail (.notCallable (name.getD v.typeName))

/-! ## Going on with pending work -/

/-- Pending work gets the value it waits for. Work that waits for something else
never stands right above a value. -/
def resume (r : Run) (s : State) (v : Value) : Pending → State
  | .unary op => s.give (Value.unary op v)
  | .binaryRight .and rhs => if v.truthy then s.goto (.eval rhs) else s.give v
  | .binaryRight .or rhs => if v.truthy then s.give v else s.goto (.eval rhs)
  | .binaryRight op rhs => s.await (.binary op v) rhs
  | .binary op lhs => s.give (s.heap.binary op lhs v)
  | .store name => s.assign name v fun s => s.give v
  | .updateValue name op value => s.await (.update name op v) value
  | .update name op old =>
    let new := s.heap.binary op old v
    s.assign name new fun s => s.give new
  | .elementKey key op value => s.await (.elementValue v op value) key
  | .elementValue container none value => s.await (.storeElement container v) value
  | .elementValue container (some op) value =>
    match s.heap.get container v with
    | .ok old => s.await (.updateElement container v op old) value
    | .error e => s.fail e
  | .storeElement container key => s.store container key v
  | .updateElement container key op old => s.store container key (s.heap.binary op old v)
  | .callee name [] => s.goto (.apply name v [])
  | .callee name (arg :: rest) => s.await (.args name v [] rest) arg
  | .args name f found [] => s.goto (.apply name f (v :: found).reverse)
  | .args name f found (arg :: rest) => s.await (.args name f (v :: found) rest) arg
  | .indexKey key => s.await (.index v) key
  | .index container => s.giveResult (s.heap.get container v)
  | .sliceStart start stop => s.await (.sliceStop v stop) start
  | .sliceStop container stop => s.await (.slice container v) stop
  | .slice container start =>
    match s.heap.slice container start v with
    | .ok p => s.produce p
    | .error e => s.fail e
  | .mapKey found value rest => s.await (.mapValue found v rest) value
  | .mapValue found key [] => s.produceMap (setEntry key v found)
  | .mapValue found key ((nextKey, value) :: rest) =>
    s.await (.mapKey (setEntry key v found) value rest) nextKey
  | .listItem found [] => s.produce (.list (v :: found).reverse.toArray)
  | .listItem found (item :: rest) => s.await (.listItem (v :: found) rest) item
  | .discard => s.finish
  | .branch body rest => if v.truthy then s.enterBlock body else s.alternative rest
  | .loopTest test body =>
    if v.truthy then { s with pending := .loopBody test body :: s.pending }.enterBlock body
    else s.finish
  | .iterable header body =>
    match s.roundsOver header v with
    | .ok rounds => s.nextRound header.names body rounds
    | .error e => s.fail e
  | .subject arms => s.selectArm v arms
  | .pattern subject patterns body rest =>
    if v.strictEq subject then s.enterBlock body
    else
      match patterns with
      | [] => s.selectArm subject rest
      | p :: patterns => s.await (.pattern subject patterns body rest) p
  | .result => s.goto (.flow (.returned v))
  | .assertion line =>
    if v.truthy then s.finish
    else s.fail (.assertionFailed (r.file ++ ":" ++ toString line))
  | .thrown => s.goto (.raise (.thrown v))
  | .statements _ | .trailing _ | .loopBody .. | .rounds .. | .handler .. | .caller _ => s.give v

/-- The caller's side of the end of a call. -/
def leave (s : State) (env : Env) (c : Control) : State :=
  { s with control := c, env := env, depth := s.depth - 1 }

/-- A statement has ended under pending work. Loops take in the jumps that are
theirs, a call takes in everything, and all other work is passed by. -/
def proceed (s : State) (f : Flow) : Pending → State
  | .statements rest =>
    match f with
    | .normal => s.goto (.exec rest)
    | f => s.goto (.flow f)
  | .trailing last =>
    match f with
    | .normal => s.await .result last
    | f => s.goto (.flow f)
  | .loopBody test body =>
    match f with
    | .normal | .continue => s.await (.loopTest test body) test
    | .break => s.finish
    | .returned v => s.goto (.flow (.returned v))
  | .rounds names rest body =>
    match f with
    | .normal | .continue => s.nextRound names body rest
    | .break => s.finish
    | .returned v => s.goto (.flow (.returned v))
  | .caller env =>
    match f with
    | .returned v => s.leave env (.value v)
    | _ => s.leave env (.value .null)
  | _ => s.goto (.flow f)

/-- Unwinding passes by pending work, except that a handler stops what it can catch and
that the end of a call puts the caller's environment back. -/
def unwind (s : State) (u : Unwinding) : Pending → State
  | .handler name body =>
    match u.caught? with
    | some v => s.assign name v fun s => s.enterBlock body
    | none => s.goto (.raise u)
  | .caller env => s.leave env (.raise u)
  | _ => s.goto (.raise u)

/-- The run is over: a value, the end of a statement or an unwinding is there, and
nothing waits for it. -/
def isOver (s : State) : Bool :=
  match s.control, s.pending with
  | .value _, [] | .flow _, [] | .raise _, [] => true
  | _, _ => false

/-- The state after one step. A state in which the run is over stays as it is. -/
def next (r : Run) (s : State) : State :=
  match s.control with
  | .eval e => s.eval e
  | .exec body => s.exec body
  | .apply name f args => apply r s name f args
  | .value v =>
    match s.pending with
    | [] => s
    | p :: rest => resume r { s with pending := rest } v p
  | .flow f =>
    match s.pending with
    | [] => s
    | p :: rest => { s with pending := rest }.proceed f p
  | .raise u =>
    match s.pending with
    | [] => s
    | p :: rest => { s with pending := rest }.unwind u p

/-- One step. There is none when the run is over. -/
def step (r : Run) (s : State) : Option State :=
  if s.isOver then none else some (s.next r)

end State

end ScriptLang
