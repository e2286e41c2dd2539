import ScriptLang.Proofs.Machine.Steps
import ScriptLang.Proofs.Target.ExplicitReturn

/-!
# Runs of programs with explicit results

A program whose functions return their last expression runs like the program with
these results made explicit. The two states differ in the syntax that they hold: in
what is done next, in pending work, and in the functions of closures. Frames, containers
and written texts are the same, and so is everything that operations on values can see.

The two runs do not go step by step. The first one keeps the last expression of a body
apart and evaluates it when the statements before it have ended normally; the second one
comes to a `return` among its statements. `Coupled` relates the states of the two runs in
which they meet, and between two such states each run makes a few steps of its own that
write nothing.
-/

namespace ScriptLang

/-- The run with last expressions returned, or not. -/
def Run.returning (r : Run) (implicit : Bool) : Run :=
  { r with options := { r.options with implicitReturn := implicit } }

/-! ## States with explicit results -/

namespace Control

/-- What is done next, with explicit results. -/
def explicitReturns : Control → Control
  | exec body => exec (ScriptLang.explicitReturns body)
  | c => c

end Control

namespace Pending

/-- Pending work, with explicit results. -/
def explicitReturns : Pending → Pending
  | branch body rest => branch (ScriptLang.explicitReturns body) rest.explicitReturns
  | loopTest test body => loopTest test (ScriptLang.explicitReturns body)
  | iterable header body => iterable header (ScriptLang.explicitReturns body)
  | subject arms => subject (explicitReturnsInArms arms)
  | pattern v patterns body rest =>
    pattern v patterns (ScriptLang.explicitReturns body) (explicitReturnsInArms rest)
  | statements rest => statements (ScriptLang.explicitReturns rest)
  | loopBody test body => loopBody test (ScriptLang.explicitReturns body)
  | rounds names rest body => rounds names rest (ScriptLang.explicitReturns body)
  | handler name body => handler name (ScriptLang.explicitReturns body)
  | p => p

end Pending

/-- The closure of the function with explicit results. -/
def Closure.explicitReturns (c : Closure) : Closure :=
  { c with function := c.function.explicitReturns }

namespace Heap

/-- The heap with explicit results in the functions of all closures. -/
def explicitReturns (h : Heap) : Heap :=
  { h with closures := h.closures.map Closure.explicitReturns }

variable (h : Heap)

@[simp] theorem getElem?_closures_explicitReturns (id : Nat) :
    h.explicitReturns.closures[id]? = (h.closures[id]?).map Closure.explicitReturns := by
  simp [explicitReturns]

@[simp] theorem nextClosure_explicitReturns : h.explicitReturns.nextClosure = h.nextClosure := by
  simp [nextClosure, explicitReturns]

@[simp] theorem addClosure_explicitReturns (f : Function) (env : Env) :
    h.explicitReturns.addClosure f.explicitReturns env =
      (h.addClosure f env).explicitReturns := by
  simp [addClosure, explicitReturns, Closure.explicitReturns]

theorem nestedTextWithin_explicitReturns (depth : Nat) (v : Value) :
    h.explicitReturns.nestedTextWithin depth v = h.nestedTextWithin depth v := by
  have items : ∀ id, h.explicitReturns.items id = h.items id := fun _ => rfl
  have entries : ∀ id, h.explicitReturns.entries id = h.entries id := fun _ => rfl
  have name : ∀ id : Nat, (h.explicitReturns.closures[id]?).map (fun c => c.function.name) =
      (h.closures[id]?).map fun c => c.function.name := by
    intro id
    rw [getElem?_closures_explicitReturns, Option.map_map]
    rfl
  induction depth generalizing v with
  | zero => cases v <;> simp only [nestedTextWithin, name]
  | succ depth ih =>
      have below : h.explicitReturns.nestedTextWithin depth = h.nestedTextWithin depth :=
        funext ih
      cases v <;> simp only [nestedTextWithin, name, items, entries, below]

@[simp] theorem text_explicitReturns (v : Value) : h.explicitReturns.text v = h.text v := by
  cases v <;> first | rfl | exact nestedTextWithin_explicitReturns h _ _

theorem deepEqWithin_explicitReturns (depth : Nat) (a b : Value) :
    h.explicitReturns.deepEqWithin depth a b = h.deepEqWithin depth a b := by
  have items : ∀ id, h.explicitReturns.items id = h.items id := fun _ => rfl
  have entries : ∀ id, h.explicitReturns.entries id = h.entries id := fun _ => rfl
  induction depth generalizing a b with
  | zero => rfl
  | succ depth ih => cases a <;> cases b <;> simp only [deepEqWithin, items, entries, ih]

@[simp] theorem binary_explicitReturns (op : BinaryOp) (a b : Value) :
    h.explicitReturns.binary op a b = h.binary op a b := by
  have equal : h.explicitReturns.deepEq a b = h.deepEq a b :=
    deepEqWithin_explicitReturns h _ a b
  cases op <;> simp only [binary, equal, text_explicitReturns]

end Heap

namespace Builtin

@[simp] theorem call_explicitReturns (b : Builtin) (args : List Value) (h : Heap) :
    b.call args h.explicitReturns = b.call args h := by
  have length : ∀ v, h.explicitReturns.length v = h.length v := fun _ => rfl
  have evaluated : b.evaluate args h.explicitReturns = b.evaluate args h := by
    cases b <;> simp only [evaluate, Heap.text_explicitReturns, length]
  cases b <;> first | rfl | exact congrArg Answer.of evaluated

end Builtin

/-! ## States that go on alike -/

/-- The pending work of the two runs. It is the same, one by one, but where the first run
keeps the last expression of a body, in the second one a `return` of it is the last of the
statements. When the expression is under way, nothing is left of them. -/
inductive Pending.Matches : List Pending → List Pending → Prop where
  | nil : Matches [] []
  | work {p : Pending} {rest rest' : List Pending} : Matches rest rest' →
      Matches (p :: rest) (p.explicitReturns :: rest')
  | body (body : List Stmt) (last : Expr) {rest rest' : List Pending} : Matches rest rest' →
      Matches (.statements body :: .trailing last :: rest)
        (.statements (ScriptLang.explicitReturns body ++ [.ret last]) :: rest')
  | result {rest rest' : List Pending} : Matches rest rest' →
      Matches (.result :: rest) (.result :: .statements [] :: rest')

namespace State

open Pending (Matches)

/-- The state with explicit results, above this pending work. -/
def explicitReturns (s : State) (pending : List Pending) : State :=
  { s with
    control := s.control.explicitReturns
    pending := pending
    heap := s.heap.explicitReturns }

/-- The second state is the first one with explicit results, above matching work. -/
def Alike (s t : State) : Prop :=
  ∃ pending, Matches s.pending pending ∧ t = s.explicitReturns pending

/-- The two runs meet: they go on alike, or before the rest of a body. -/
inductive Coupled : State → State → Prop where
  | alike {s t : State} : s.Alike t → Coupled s t
  | body {s : State} {pending : List Pending} (body : List Stmt) (last : Expr) :
      Matches s.pending pending →
      Coupled { s with control := .exec body, pending := .trailing last :: s.pending }
        ((s.explicitReturns pending).goto (.exec (ScriptLang.explicitReturns body ++ [.ret last])))

variable {s : State} {pending : List Pending}

/-! ## One lemma for each step function -/

namespace Alike

section

variable (h : Matches s.pending pending)

include h

theorem goto (c : Control) :
    (s.goto c).Alike ((s.explicitReturns pending).goto c.explicitReturns) :=
  ⟨pending, h, rfl⟩

theorem give (v : Value) : (s.give v).Alike ((s.explicitReturns pending).give v) :=
  goto h (.value v)

theorem finish : s.finish.Alike (s.explicitReturns pending).finish := goto h (.flow .normal)

theorem fail (e : RuntimeError) : (s.fail e).Alike ((s.explicitReturns pending).fail e) :=
  goto h (.raise (.error e))

theorem await (p : Pending) (e : Expr) :
    (s.await p e).Alike ((s.explicitReturns pending).await p.explicitReturns e) :=
  ⟨p.explicitReturns :: pending, .work h, rfl⟩

theorem produce (p : Product) : (s.produce p).Alike ((s.explicitReturns pending).produce p) := by
  cases p <;> exact ⟨pending, h, rfl⟩

theorem produceMap (entries : List (Value × Value)) :
    (s.produceMap entries).Alike ((s.explicitReturns pending).produceMap entries) :=
  ⟨pending, h, rfl⟩

theorem giveResult (result : Except RuntimeError Value) :
    (s.giveResult result).Alike ((s.explicitReturns pending).giveResult result) := by
  cases result with
  | ok v => exact give h v
  | error e => exact fail h e

/-- The same variable is assigned, or the same one is reported. -/
theorem assign {name : String} {v : Value} {andThen andThen' : State → State}
    (later : ∀ id, (andThen { s with frames := s.frames.bind id name v }).Alike
      (andThen' ({ s with frames := s.frames.bind id name v }.explicitReturns pending))) :
    (s.assign name v andThen).Alike ((s.explicitReturns pending).assign name v andThen') := by
  have frames : (s.explicitReturns pending).frames.home? (s.explicitReturns pending).env name =
      s.frames.home? s.env name := rfl
  cases home : s.frames.home? s.env name with
  | none =>
      rw [assign_of_unbound home, assign_of_unbound (frames.trans home)]
      exact fail h _
  | some id =>
      rw [assign_of_home? home, assign_of_home? (frames.trans home)]
      exact later id

theorem assignAndGive (name : String) (v w : Value) :
    (s.assign name v fun s => s.give w).Alike
      ((s.explicitReturns pending).assign name v fun s => s.give w) :=
  assign h fun id => give (s := { s with frames := s.frames.bind id name v }) h w

theorem store (container key v : Value) :
    (s.store container key v).Alike ((s.explicitReturns pending).store container key v) := by
  have place : (s.explicitReturns pending).heap.place container key =
      s.heap.place container key := rfl
  simp only [State.store, place]
  cases s.heap.place container key with
  | ok p => cases p <;> exact ⟨pending, h, rfl⟩
  | error e => exact fail h e

end

theorem enter (h : Matches s.pending pending) (body : List Stmt) (functions : List Function) :
    (s.enter body functions).Alike ((s.explicitReturns pending).enter
      (ScriptLang.explicitReturns body) (functions.map Function.explicitReturns)) := by
  induction functions generalizing s with
  | nil => exact goto h (.exec body)
  | cons f rest ih =>
      have next : (s.explicitReturns pending).heap.nextClosure = s.heap.nextClosure :=
        s.heap.nextClosure_explicitReturns
      rw [List.map_cons, State.enter, State.enter, next]
      refine assign h fun id => ?_
      have added : (s.explicitReturns pending).heap.addClosure f.explicitReturns s.env =
          (s.heap.addClosure f s.env).explicitReturns := s.heap.addClosure_explicitReturns f s.env
      have entered := ih (s := { s with
        frames := s.frames.bind id f.name s.heap.nextClosure
        heap := s.heap.addClosure f s.env }) h
      unfold State.explicitReturns at entered added ⊢
      rw [added]
      exact entered

/-- A nested block is entered. -/
theorem enterBlock (h : Matches s.pending pending) (body : List Stmt) :
    (s.enterBlock body).Alike
      ((s.explicitReturns pending).enterBlock (ScriptLang.explicitReturns body)) := by
  rw [State.enterBlock, State.enterBlock, functionsOf_explicitReturns]
  exact enter h body (functionsOf body)

theorem alternative (h : Matches s.pending pending) (rest : Alternative) :
    (s.alternative rest).Alike
      ((s.explicitReturns pending).alternative rest.explicitReturns) := by
  cases rest with
  | none => exact finish h
  | otherwise body => exact enterBlock h body
  | elif test body rest => exact await h (.branch body rest) test

theorem selectArm (h : Matches s.pending pending) (subject : Value) (arms : List Arm) :
    (s.selectArm subject arms).Alike
      ((s.explicitReturns pending).selectArm subject (explicitReturnsInArms arms)) := by
  match arms with
  | [] => exact finish h
  | .mk [] body :: _ => exact enterBlock h body
  | .mk (p :: patterns) body :: rest => exact await h (.pattern subject patterns body rest) p

theorem startRound (h : Matches s.pending pending) (body : List Stmt)
    (bindings : List (String × Value)) :
    (s.startRound body bindings).Alike
      ((s.explicitReturns pending).startRound (ScriptLang.explicitReturns body) bindings) := by
  induction bindings generalizing s with
  | nil => exact enterBlock h body
  | cons b rest ih =>
      exact assign h fun id => ih (s := { s with frames := s.frames.bind id b.1 b.2 }) h

theorem nextRound (h : Matches s.pending pending) (names : List String) (body : List Stmt)
    (rounds : List (List Value)) :
    (s.nextRound names body rounds).Alike
      ((s.explicitReturns pending).nextRound names (ScriptLang.explicitReturns body) rounds) := by
  cases rounds with
  | nil => exact finish h
  | cons values rest =>
      exact startRound (s := { s with pending := .rounds names rest body :: s.pending })
        (.work h) body (names.zip values)

/-- Expressions hold no functions. -/
theorem eval (h : Matches s.pending pending) (e : Expr) :
    (s.eval e).Alike ((s.explicitReturns pending).eval e) := by
  unfold State.eval
  split
  next name =>
    have found : (s.explicitReturns pending).frames.lookup (s.explicitReturns pending).env name =
        s.frames.lookup s.env name := rfl
    rw [found]
    cases constant? name with
    | some v => exact give h v
    | none =>
        cases s.frames.lookup s.env name with
        | some v => exact give h v
        | none => exact fail h _
  next text =>
    cases Number.literal? text.toList with
    | some x => exact give h _
    | none => exact fail h _
  all_goals first
    | exact give h _
    | exact fail h _
    | exact await h _ _
    | exact produceMap h _
    | exact produce h _

theorem begin (h : Matches s.pending pending) (stmt : Stmt) :
    (s.begin stmt).Alike ((s.explicitReturns pending).begin stmt.explicitReturns) := by
  cases stmt with
  | expr e => exact await h .discard e
  | cond test body rest => exact await h (.branch body rest) test
  | whileLoop test body => exact await h (.loopTest test body) test
  | doWhile test body =>
      exact enterBlock (s := { s with pending := .loopBody test body :: s.pending }) (.work h) body
  | forEach header iterable body => exact await h (.iterable header body) iterable
  | select subject arms => exact await h (.subject arms) subject
  | func | outer => exact finish h
  | ret value => exact await h .result value
  | «break» => exact goto h (.flow .break)
  | «continue» => exact goto h (.flow .continue)
  | assert test line => exact await h (.assertion line) test
  | throw value => exact await h .thrown value
  | attempt body name handler =>
      exact enterBlock (s := { s with pending := .handler name handler :: s.pending }) (.work h)
        body

theorem exec (h : Matches s.pending pending) (body : List Stmt) :
    (s.exec body).Alike ((s.explicitReturns pending).exec (ScriptLang.explicitReturns body)) := by
  cases body with
  | nil => exact finish h
  | cons stmt rest =>
      exact begin (s := { s with pending := .statements rest :: s.pending }) (.work h) stmt

end Alike

/-! ### Calls -/

theorem define_explicitReturns (s : State) (id : Nat) (functions : List Function) :
    (s.explicitReturns pending).define id (functions.map Function.explicitReturns) =
      (s.define id functions).explicitReturns pending := by
  induction functions generalizing s with
  | nil => rfl
  | cons f rest ih =>
      have next : (s.explicitReturns pending).heap.nextClosure = s.heap.nextClosure :=
        s.heap.nextClosure_explicitReturns
      have added : (s.explicitReturns pending).heap.addClosure f.explicitReturns s.env =
          (s.heap.addClosure f s.env).explicitReturns := s.heap.addClosure_explicitReturns f s.env
      have defined := ih { s with
        frames := s.frames.bind id f.name s.heap.nextClosure
        heap := s.heap.addClosure f s.env }
      rw [List.map_cons, define, define, next]
      unfold State.explicitReturns at defined added ⊢
      rw [added]
      exact defined

/-- A body is entered alike, up to what of it runs. -/
theorem enterBody_explicitReturns {body body' : List Stmt}
    (functions : functionsOf body' = (functionsOf body).map Function.explicitReturns)
    (o : Options) (s : State) (frame : Frame) (outer : Env) :
    enterBody o (s.explicitReturns pending) frame outer body' =
      execBody o ((define { s with env := s.frames.size :: outer, frames := s.frames.push frame }
        s.frames.size (functionsOf body)).explicitReturns pending) body' := by
  rw [enterBody, functions, ← define_explicitReturns]
  rfl

theorem ofCall_explicitReturns (f : Function) (args : List Value) :
    Frame.ofCall f.explicitReturns args = Frame.ofCall f args := by
  simp [Frame.ofCall, Function.explicitReturns]

theorem printed_explicitReturns (s : State) (args : List Value) :
    (s.explicitReturns pending).printed args = s.printed args := by
  have text : s.heap.explicitReturns.text = s.heap.text :=
    funext (Heap.text_explicitReturns s.heap)
  exact congrArg (fun text => String.intercalate " " (args.map text) ++ "\n") text

namespace Alike

theorem append (h : Matches s.pending pending) (stream : Stream) (text : String) (c : Control) :
    ((s.append stream text).goto c).Alike
      (((s.explicitReturns pending).append stream text).goto c.explicitReturns) := by
  cases stream <;> exact ⟨pending, h, rfl⟩

/-- The same line is written, and the stream answers the same. -/
theorem write (h : Matches s.pending pending) (r : Run) (stream : Stream) (line : String) :
    (write (r.returning true) s stream line).Alike
      (write (r.returning false) (s.explicitReturns pending) stream line) := by
  have refusal : ∀ implicit, (r.returning implicit).refusal? stream s.out s.err line =
      r.refusal? stream s.out s.err line := fun _ => rfl
  have refusal' : (r.returning false).refusal? stream (s.explicitReturns pending).out
      (s.explicitReturns pending).err line = r.refusal? stream s.out s.err line := rfl
  simp only [State.write, refusal, refusal']
  cases r.refusal? stream s.out s.err line with
  | none => exact append h stream line (.value .null)
  | some refusal => exact append h stream refusal.taken (.raise (.io refusal.reason))

theorem callBuiltin (h : Matches s.pending pending) (r : Run) (b : Builtin)
    (args : List Value) :
    (callBuiltin (r.returning true) s b args).Alike
      (callBuiltin (r.returning false) (s.explicitReturns pending) b args) := by
  have called : b.call args (s.explicitReturns pending).heap = b.call args s.heap :=
    Builtin.call_explicitReturns b args s.heap
  unfold State.callBuiltin
  split
  · rw [printed_explicitReturns]
    exact write h r .out _
  · rw [printed_explicitReturns]
    exact write h r .err _
  · simp only [called]
    cases b.call args s.heap with
    | returned p => exact produce h p
    | failed e => exact fail h e
    | endless => exact ⟨pending, h, rfl⟩

end Alike

namespace Coupled

/-- The statements of a function's body. One that ends in an expression is kept apart from
it in the first run, and ends in a `return` of it in the second one. -/
theorem execBody (h : Matches s.pending pending) {o o' : Options}
    (implicit : o.implicitReturn = true) (explicit : o'.implicitReturn = false)
    (inside : s.depth ≠ 0) (body : List Stmt) :
    Coupled (execBody o s body)
      (execBody o' (s.explicitReturns pending)
        (returningLast (ScriptLang.explicitReturns body))) := by
  rw [execBody_of_explicit explicit]
  by_cases ends : ∃ rest last, body = rest ++ [.expr last]
  · obtain ⟨rest, last, rfl⟩ := ends
    rw [execBody_append_expr implicit inside, returningLast_explicitReturns_append]
    exact .body rest last h
  · have whole : ∀ rest last, body ≠ rest ++ [.expr last] :=
      fun rest last h => ends ⟨rest, last, h⟩
    rw [execBody_of_ne whole, returningLast_explicitReturns_of_ne whole]
    exact .alike (Alike.goto h (.exec body))

/-- A function's body is entered. -/
theorem enterBody (h : Matches s.pending pending) {o o' : Options}
    (implicit : o.implicitReturn = true) (explicit : o'.implicitReturn = false)
    (inside : s.depth ≠ 0) (frame : Frame) (outer : Env) (body : List Stmt) :
    Coupled (enterBody o s frame outer body)
      (enterBody o' (s.explicitReturns pending) frame outer
        (returningLast (ScriptLang.explicitReturns body))) := by
  have functions : functionsOf (returningLast (ScriptLang.explicitReturns body)) =
      (functionsOf body).map Function.explicitReturns := by
    rw [functionsOf_returningLast, functionsOf_explicitReturns]
  rw [enterBody_explicitReturns functions, State.enterBody]
  refine execBody ?_ implicit explicit ?_ body
  · rw [pending_define]
    exact h
  · rw [depth_define]
    exact inside

/-- The program itself is entered outside of all calls, and all of its statements run. -/
theorem enterProgram (h : Matches s.pending pending) (outside : s.depth = 0) (o o' : Options)
    (frame : Frame) (outer : Env) (body : List Stmt) :
    Coupled (State.enterBody o s frame outer body)
      (State.enterBody o' (s.explicitReturns pending) frame outer
        (ScriptLang.explicitReturns body)) := by
  rw [enterBody_explicitReturns (functionsOf_explicitReturns body), State.enterBody]
  rw [execBody_of_depth_zero, execBody_of_depth_zero]
  · refine .alike (Alike.goto ?_ (.exec body))
    rw [pending_define]
    exact h
  · exact (depth_define ..).trans outside
  · exact (depth_define ..).trans outside

theorem callClosure (h : Matches s.pending pending) (r : Run) (c : Closure)
    (args : List Value) :
    Coupled (callClosure (r.returning true) s c args)
      (callClosure (r.returning false) (s.explicitReturns pending) c.explicitReturns args) := by
  have frame : Frame.ofCall c.explicitReturns.function args = Frame.ofCall c.function args :=
    ofCall_explicitReturns c.function args
  unfold State.callClosure
  by_cases full : r.maxDepth ≤ s.depth
  · have full₁ : (r.returning true).maxDepth ≤ s.depth := full
    have full₀ : (r.returning false).maxDepth ≤ (s.explicitReturns pending).depth := full
    rw [if_pos full₁, if_pos full₀]
    exact .alike (Alike.fail h _)
  · have room₁ : ¬ (r.returning true).maxDepth ≤ s.depth := full
    have room₀ : ¬ (r.returning false).maxDepth ≤ (s.explicitReturns pending).depth := full
    rw [if_neg room₁, if_neg room₀, frame]
    exact enterBody (s := { s with pending := .caller s.env :: s.pending, depth := s.depth + 1 })
      (.work h) rfl rfl s.depth.succ_ne_zero (.ofCall c.function args) c.env c.function.body

theorem apply (h : Matches s.pending pending) (r : Run) (name : Option String) (f : Value)
    (args : List Value) :
    Coupled (apply (r.returning true) s name f args)
      (apply (r.returning false) (s.explicitReturns pending) name f args) := by
  cases f with
  | closure id =>
      have found : (s.explicitReturns pending).heap.closures[id]? =
          (s.heap.closures[id]?).map Closure.explicitReturns :=
        s.heap.getElem?_closures_explicitReturns id
      simp only [State.apply, found]
      cases s.heap.closures[id]? with
      | none => exact .alike (Alike.fail h _)
      | some c => exact callClosure h r c args
  | builtin b => exact .alike (Alike.callBuiltin h r b args)
  | _ => exact .alike (Alike.fail h _)

end Coupled

/-! ### Pending work -/

namespace Alike

theorem resume (h : Matches s.pending pending) (r : Run) (v : Value) (p : Pending) :
    (resume (r.returning true) s v p).Alike
      (resume (r.returning false) (s.explicitReturns pending) v p.explicitReturns) := by
  have get : ∀ container key, (s.explicitReturns pending).heap.get container key =
      s.heap.get container key := fun _ _ => rfl
  have slice : ∀ container start stop, (s.explicitReturns pending).heap.slice container start stop =
      s.heap.slice container start stop := fun _ _ _ => rfl
  have binary : ∀ op a b, (s.explicitReturns pending).heap.binary op a b = s.heap.binary op a b :=
    s.heap.binary_explicitReturns
  cases p with
  | unary op => exact give h _
  | binaryRight op rhs =>
      cases op with
      | and =>
          simp only [Pending.explicitReturns, State.resume]
          split
          · exact goto h (.eval rhs)
          · exact give h v
      | or =>
          simp only [Pending.explicitReturns, State.resume]
          split
          · exact give h v
          · exact goto h (.eval rhs)
      | _ => exact await h (.binary _ v) rhs
  | binary op lhs =>
      simp only [Pending.explicitReturns, State.resume, binary]
      exact give h _
  | store name => exact assignAndGive h name v v
  | updateValue name op value => exact await h (.update name op v) value
  | update name op old =>
      simp only [Pending.explicitReturns, State.resume, binary]
      exact assignAndGive h name _ _
  | elementKey key op value => exact await h (.elementValue v op value) key
  | elementValue container op value =>
      cases op with
      | none => exact await h (.storeElement container v) value
      | some op =>
          simp only [Pending.explicitReturns, State.resume, get]
          cases s.heap.get container v with
          | ok old => exact await h (.updateElement container v op old) value
          | error e => exact fail h e
  | storeElement container key => exact store h container key v
  | updateElement container key op old =>
      simp only [Pending.explicitReturns, State.resume, binary]
      exact store h container key _
  | callee name args =>
      cases args with
      | nil => exact goto h (.apply name v [])
      | cons arg rest => exact await h (.args name v [] rest) arg
  | args name f found rest =>
      cases rest with
      | nil => exact goto h (.apply name f (v :: found).reverse)
      | cons arg rest => exact await h (.args name f (v :: found) rest) arg
  | indexKey key => exact await h (.index v) key
  | index container => exact giveResult h _
  | sliceStart start stop => exact await h (.sliceStop v stop) start
  | sliceStop container stop => exact await h (.slice container v) stop
  | slice container start =>
      simp only [Pending.explicitReturns, State.resume, slice]
      cases s.heap.slice container start v with
      | ok p => exact produce h p
      | error e => exact fail h e
  | mapKey found value rest => exact await h (.mapValue found v rest) value
  | mapValue found key rest =>
      rcases rest with _ | ⟨⟨next, value⟩, rest⟩
      · exact produceMap h _
      · exact await h (.mapKey (setEntry key v found) value rest) next
  | listItem found rest =>
      cases rest with
      | nil => exact produce h _
      | cons item rest => exact await h (.listItem (v :: found) rest) item
  | discard => exact finish h
  | branch body rest =>
      simp only [Pending.explicitReturns, State.resume]
      split
      · exact enterBlock h body
      · exact alternative h rest
  | loopTest test body =>
      simp only [Pending.explicitReturns, State.resume]
      split
      · exact enterBlock (s := { s with pending := .loopBody test body :: s.pending }) (.work h)
          body
      · exact finish h
  | iterable header body =>
      have rounds : (s.explicitReturns pending).roundsOver header v = s.roundsOver header v := by
        cases header <;> rfl
      simp only [Pending.explicitReturns, State.resume, rounds]
      cases s.roundsOver header v with
      | ok rounds => exact nextRound h header.names body rounds
      | error e => exact fail h e
  | subject arms => exact selectArm h v arms
  | pattern subject patterns body rest =>
      simp only [Pending.explicitReturns, State.resume]
      split
      · exact enterBlock h body
      · cases patterns with
        | nil => exact selectArm h subject rest
        | cons p patterns => exact await h (.pattern subject patterns body rest) p
  | result => exact goto h (.flow (.returned v))
  | assertion line =>
      simp only [Pending.explicitReturns, State.resume]
      split
      · exact finish h
      · exact fail h _
  | thrown => exact goto h (.raise (.thrown v))
  | statements | trailing | loopBody | rounds | handler | caller => exact give h v

theorem proceed (h : Matches s.pending pending) (f : Flow) (p : Pending) :
    (s.proceed f p).Alike ((s.explicitReturns pending).proceed f p.explicitReturns) := by
  cases p with
  | statements rest =>
      cases f with
      | normal => exact goto h (.exec rest)
      | _ => exact goto h (.flow _)
  | trailing last =>
      cases f with
      | normal => exact await h .result last
      | _ => exact goto h (.flow _)
  | loopBody test body =>
      cases f with
      | normal | «continue» => exact await h (.loopTest test body) test
      | «break» => exact finish h
      | returned v => exact goto h (.flow (.returned v))
  | rounds names rest body =>
      cases f with
      | normal | «continue» => exact nextRound h names body rest
      | «break» => exact finish h
      | returned v => exact goto h (.flow (.returned v))
  | caller env => cases f <;> exact ⟨pending, h, rfl⟩
  | _ => exact goto h (.flow f)

theorem unwind (h : Matches s.pending pending) (u : Unwinding) (p : Pending) :
    (s.unwind u p).Alike ((s.explicitReturns pending).unwind u p.explicitReturns) := by
  cases p with
  | handler name body =>
      simp only [Pending.explicitReturns, State.unwind]
      cases u.caught? with
      | none => exact goto h (.raise u)
      | some v =>
          exact assign h fun id =>
            enterBlock (s := { s with frames := s.frames.bind id name v }) h body
  | caller env => exact ⟨pending, h, rfl⟩
  | _ => exact goto h (.raise u)

end Alike

/-! ## Steps of the two runs -/

/-- What has been written so far, to both streams. -/
def texts (s : State) : String × String := (s.out, s.err)

/-- Some steps of a run, of which only the last one may write. -/
inductive GoesTo (r : Run) : State → State → Prop where
  | step {s : State} : GoesTo r s (s.next r)
  | quiet {s t : State} : (s.next r).texts = s.texts → GoesTo r (s.next r) t → GoesTo r s t

namespace Coupled

variable {t : State}

theorem texts_eq (h : Coupled s t) : s.texts = t.texts := by
  cases h with
  | alike h =>
      obtain ⟨pending, -, rfl⟩ := h
      rfl
  | body => rfl

theorem isOver_eq (h : Coupled s t) : s.isOver = t.isOver := by
  cases h with
  | alike h =>
      obtain ⟨pending, matching, rfl⟩ := h
      obtain ⟨control, pending₁, env, depth, frames, heap, out, err⟩ := s
      cases control <;> cases matching <;> rfl
  | body => rfl

/-- Runs that end while they go on alike end with the same outcome. -/
theorem outcome_eq (h : Coupled s t) : s.outcome = t.outcome := by
  cases h with
  | alike h =>
      obtain ⟨pending, -, rfl⟩ := h
      obtain ⟨control, pending₁, env, depth, frames, heap, out, err⟩ := s
      cases control with
      | raise u =>
          cases u with
          | thrown v =>
              exact congrArg (fun text => Outcome.mk out err (some (.error (.thrown text))))
                (heap.text_explicitReturns v).symm
          | error | io => rfl
      | _ => rfl
  | body => rfl

/-- The two runs meet here and will meet again. -/
def MeetAgain (r : Run) (s t : State) : Prop :=
  ∃ s' t', GoesTo (r.returning true) s s' ∧ GoesTo (r.returning false) t t' ∧ Coupled s' t'

/-- They do when each of them makes one step. -/
theorem meetAgain_of_next {r : Run}
    (h : Coupled (s.next (r.returning true)) (t.next (r.returning false))) : MeetAgain r s t :=
  ⟨_, _, .step, .step, h⟩

end Coupled

open Coupled (MeetAgain meetAgain_of_next)

/-- Below the statements of a body in the first run waits its last expression. What does not
end the statements normally passes it by. -/
theorem meetAgain_body (r : Run) (hs : s.control.isResult) (body : List Stmt) (last : Expr)
    {rest rest' : List Pending} (h : Matches rest rest')
    (hp : s.pending = .statements body :: .trailing last :: rest) :
    MeetAgain r s (s.explicitReturns
      (.statements (ScriptLang.explicitReturns body ++ [.ret last]) :: rest')) := by
  obtain ⟨control, pending, env, depth, frames, heap, out, err⟩ := s
  obtain rfl := hp
  have alike : ∀ c, Coupled ⟨c, rest, env, depth, frames, heap, out, err⟩
      (explicitReturns ⟨c, rest, env, depth, frames, heap, out, err⟩ rest') :=
    fun c => .alike ⟨rest', h, rfl⟩
  cases control with
  | eval | exec | apply => cases hs
  | value v => exact ⟨_, _, .quiet rfl .step, .step, alike (.value v)⟩
  | raise u => exact ⟨_, _, .quiet rfl .step, .step, alike (.raise u)⟩
  | flow f =>
      cases f with
      | normal =>
          exact meetAgain_of_next
            (.body (s := ⟨.flow .normal, rest, env, depth, frames, heap, out, err⟩) body last h)
      | _ => exact ⟨_, _, .quiet rfl .step, .step, alike (.flow _)⟩

/-- Below a `return` in the second run waits that nothing is left of the statements. What
ends the evaluation passes it by. -/
theorem meetAgain_result (r : Run) (hs : s.control.isResult) {rest rest' : List Pending}
    (h : Matches rest rest') (hp : s.pending = .result :: rest) :
    MeetAgain r s (s.explicitReturns (.result :: .statements [] :: rest')) := by
  obtain ⟨control, pending, env, depth, frames, heap, out, err⟩ := s
  obtain rfl := hp
  have alike : ∀ c, Coupled ⟨c, rest, env, depth, frames, heap, out, err⟩
      (explicitReturns ⟨c, rest, env, depth, frames, heap, out, err⟩ rest') :=
    fun c => .alike ⟨rest', h, rfl⟩
  cases control with
  | eval | exec | apply => cases hs
  | value v => exact ⟨_, _, .step, .quiet rfl .step, alike (.flow (.returned v))⟩
  | raise u => exact ⟨_, _, .step, .quiet rfl .step, alike (.raise u)⟩
  | flow f =>
      cases f with
      | normal => exact ⟨_, _, .step, .quiet rfl (.quiet rfl .step), alike (.flow .normal)⟩
      | _ => exact ⟨_, _, .step, .quiet rfl .step, alike (.flow _)⟩

/-- What stands on top of the pending work of the two runs uses a result. -/
theorem meetAgain_of_isResult (r : Run) (hs : s.control.isResult = true)
    (h : Matches s.pending pending) : MeetAgain r s (s.explicitReturns pending) := by
  obtain ⟨control, pending₁, env, depth, frames, heap, out, err⟩ := s
  cases h with
  | nil =>
      refine meetAgain_of_next (.alike ?_)
      cases control with
      | eval | exec | apply => cases hs
      | value | flow | raise => exact ⟨[], .nil, rfl⟩
  | @work p rest rest' h =>
      refine meetAgain_of_next (.alike ?_)
      cases control with
      | eval | exec | apply => cases hs
      | value v =>
          exact Alike.resume (s := ⟨.value v, rest, env, depth, frames, heap, out, err⟩) h r v p
      | flow f =>
          exact Alike.proceed (s := ⟨.flow f, rest, env, depth, frames, heap, out, err⟩) h f p
      | raise u =>
          exact Alike.unwind (s := ⟨.raise u, rest, env, depth, frames, heap, out, err⟩) h u p
  | body body last h => exact meetAgain_body r hs body last h rfl
  | result h => exact meetAgain_result r hs h rfl

theorem enter_goto (s : State) (c : Control) (body : List Stmt) (functions : List Function) :
    (s.goto c).enter body functions = s.enter body functions := by
  induction functions generalizing s with
  | nil => rfl
  | cons f rest ih =>
      rw [enter, enter]
      cases home : s.frames.home? s.env f.name with
      | none =>
          rw [assign_of_unbound home, assign_of_unbound (s := s.goto c) home]
          rfl
      | some id =>
          rw [assign_of_home? home, assign_of_home? (s := s.goto c) home]
          exact ih { s with
            frames := s.frames.bind id f.name s.heap.nextClosure
            heap := s.heap.addClosure f s.env }

/-- How a statement begins does not depend on what was done next so far. -/
theorem begin_goto (s : State) (c : Control) (stmt : Stmt) :
    (s.goto c).begin stmt = s.begin stmt := by
  cases stmt with
  | doWhile test body =>
      exact enter_goto { s with pending := .loopBody test body :: s.pending } c body
        (functionsOf body)
  | attempt body name handler =>
      exact enter_goto { s with pending := .handler name handler :: s.pending } c body
        (functionsOf body)
  | _ => rfl

/-- From where the two runs meet, they come to where they meet again. -/
theorem Coupled.meetAgain (r : Run) {t : State} (h : Coupled s t) : MeetAgain r s t := by
  cases h with
  | @body s pending body last h =>
      cases body with
      | nil => exact ⟨_, _, .quiet rfl .step, .step, .alike ⟨_, .result h, rfl⟩⟩
      | cons stmt rest =>
          have begun := Alike.begin
            (s := { s with pending := .statements rest :: .trailing last :: s.pending })
            (.body rest last h) stmt
          rw [← begin_goto _ (.exec (stmt :: rest)), ← begin_goto (State.explicitReturns _ _)
            (.exec (ScriptLang.explicitReturns (stmt :: rest) ++ [.ret last]))] at begun
          exact meetAgain_of_next (.alike begun)
  | alike h =>
      obtain ⟨pending, h, rfl⟩ := h
      by_cases result : s.control.isResult = true
      · exact meetAgain_of_isResult r result h
      refine meetAgain_of_next ?_
      obtain ⟨control, pending₁, env, depth, frames, heap, out, err⟩ := s
      cases control with
      | eval e => exact .alike (Alike.eval h e)
      | exec body => exact .alike (Alike.exec h body)
      | apply name f args => exact apply h r name f args
      | value | flow | raise => exact absurd rfl result

/-! ## Runs -/

/-- The steps of a run that lead from one state to another one. -/
theorem GoesTo.after {r : Run} {program : List Stmt} {n : Nat} {s t : State}
    (h : GoesTo r s t) (start : after r program n = s) :
    ∃ m, n < m ∧ after r program m = t ∧
      ∀ i, n ≤ i → i < m → (State.after r program i).texts = s.texts := by
  induction h generalizing n with
  | step =>
      refine ⟨n + 1, n.lt_succ_self, by rw [State.after, start], fun i hi hm => ?_⟩
      rw [Nat.le_antisymm (Nat.le_of_lt_succ hm) hi, start]
  | @quiet s t same goesTo ih =>
      obtain ⟨m, hm, ends, texts⟩ := ih (n := n + 1) (by rw [State.after, start])
      refine ⟨m, Nat.lt_of_succ_lt hm, ends, fun i hi him => ?_⟩
      rcases Nat.eq_or_lt_of_le hi with rfl | hi
      · rw [start]
      · rw [texts i hi him, same]

theorem next_of_isOver {r : Run} (h : s.isOver = true) : s.next r = s := by
  obtain ⟨control, pending, env, depth, frames, heap, out, err⟩ := s
  cases pending with
  | nil => cases control <;> first | rfl | cases h
  | cons => cases control <;> cases h

/-- A run that is over stays where it is. -/
theorem after_of_isOver {r : Run} {program : List Stmt} {n m : Nat} (le : n ≤ m)
    (h : (after r program n).isOver = true) : after r program m = after r program n := by
  induction le with
  | refl => rfl
  | step _ ih => rw [after, ih, next_of_isOver h]

theorem runFor_eq_some {r : Run} {program : List Stmt} {n steps : Nat} {s : State}
    (h : runFor r steps (after r program n) = some s) :
    ∃ m, after r program m = s ∧ s.isOver = true := by
  induction steps generalizing n with
  | zero => cases h
  | succ steps ih =>
      rw [runFor] at h
      split at h
      next last =>
        obtain rfl := Option.some.inj h
        exact ⟨n, rfl, last⟩
      next => exact ih (n := n + 1) h

theorem exists_runFor_eq_some {r : Run} {program : List Stmt} {n d : Nat}
    (h : (after r program (n + d)).isOver = true) :
    ∃ steps, runFor r steps (after r program n) = some (after r program (n + d)) := by
  induction d generalizing n with
  | zero => exact ⟨1, if_pos h⟩
  | succ d ih =>
      rw [← Nat.add_assoc, Nat.add_right_comm] at h ⊢
      obtain ⟨steps, runs⟩ := ih h
      by_cases last : (after r program n).isOver = true
      · refine ⟨1, (if_pos last).trans ?_⟩
        rw [after_of_isOver (Nat.le_add_right_of_le n.le_succ) last]
      · exact ⟨steps + 1, (if_neg last).trans runs⟩

/-- A program comes to an outcome when its run is over at some time and leaves it behind. -/
theorem exists_interpret_iff {r : Run} {program : List Stmt} {outcome : Outcome} :
    (∃ steps, r.interpret steps program = some outcome) ↔
      ∃ n, (after r program n).isOver = true ∧ (after r program n).outcome = outcome := by
  constructor
  · rintro ⟨steps, ends⟩
    obtain ⟨s, runs, rfl⟩ := Option.map_eq_some_iff.mp ends
    obtain ⟨n, rfl, last⟩ := runFor_eq_some (n := 0) runs
    exact ⟨n, last, rfl⟩
  · rintro ⟨n, last, rfl⟩
    rw [← Nat.zero_add n] at last ⊢
    obtain ⟨steps, runs⟩ := exists_runFor_eq_some last
    exact ⟨steps, congrArg (Option.map State.outcome) runs⟩

variable (r : Run) (program : List Stmt)

/-- The two runs begin alike. -/
theorem initial_coupled : Coupled (after (r.returning true) program 0)
    (after (r.returning false) (ScriptLang.explicitReturns program) 0) := by
  have frame : Frame.ofCall ⟨"", [], ScriptLang.explicitReturns program⟩ [] =
      Frame.ofCall ⟨"", [], program⟩ [] := by
    simp [Frame.ofCall]
  have empty : Heap.explicitReturns {} = {} := by
    simp [Heap.explicitReturns]
  have entered := Coupled.enterProgram
    (s := ⟨.flow .normal, [], [0], 0, #[builtinFrame], {}, "", ""⟩) .nil rfl
    (r.returning true).options (r.returning false).options (.ofCall ⟨"", [], program⟩ []) [0]
    program
  rw [State.explicitReturns, empty] at entered
  rw [after, after, initial, initial, frame]
  exact entered

/-- However far the two runs are, they meet later. Up to there, what each of them has
written, the other one has written too. -/
theorem exists_coupled (k : Nat) : ∃ n m, k ≤ n ∧ k ≤ m ∧
    Coupled (after (r.returning true) program n)
      (after (r.returning false) (ScriptLang.explicitReturns program) m) ∧
    (∀ i ≤ n, ∃ j, (after (r.returning true) program i).texts =
      (after (r.returning false) (ScriptLang.explicitReturns program) j).texts) ∧
    ∀ j ≤ m, ∃ i, (after (r.returning true) program i).texts =
      (after (r.returning false) (ScriptLang.explicitReturns program) j).texts := by
  induction k with
  | zero =>
      have start := initial_coupled r program
      refine ⟨0, 0, Nat.le_refl 0, Nat.le_refl 0, start, fun i hi => ⟨0, ?_⟩, fun j hj => ⟨0, ?_⟩⟩
      · rw [Nat.le_zero.mp hi, start.texts_eq]
      · rw [Nat.le_zero.mp hj, start.texts_eq]
  | succ k ih =>
      obtain ⟨n, m, hn, hm, meet, there, back⟩ := ih
      obtain ⟨s, t, first, second, again⟩ := meet.meetAgain r
      obtain ⟨n', ltn, rfl, textsn⟩ := first.after rfl
      obtain ⟨m', ltm, rfl, textsm⟩ := second.after rfl
      refine ⟨n', m', Nat.lt_of_le_of_lt hn ltn, Nat.lt_of_le_of_lt hm ltm, again,
        fun i hi => ?_, fun j hj => ?_⟩
      · rcases Nat.lt_or_ge i n with early | late
        · exact there i (Nat.le_of_lt early)
        rcases Nat.eq_or_lt_of_le hi with rfl | inside
        · exact ⟨m', again.texts_eq⟩
        · exact ⟨m, (textsn i late inside).trans meet.texts_eq⟩
      · rcases Nat.lt_or_ge j m with early | late
        · exact back j (Nat.le_of_lt early)
        rcases Nat.eq_or_lt_of_le hj with rfl | inside
        · exact ⟨n', again.texts_eq⟩
        · exact ⟨n, meet.texts_eq.trans (textsm j late inside).symm⟩

/-- The two runs come to the same outcomes. -/
theorem outcomes_explicitReturns (outcome : Outcome) :
    (∃ n, (after (r.returning true) program n).isOver = true ∧
      (after (r.returning true) program n).outcome = outcome) ↔
    ∃ m, (after (r.returning false) (ScriptLang.explicitReturns program) m).isOver = true ∧
      (after (r.returning false) (ScriptLang.explicitReturns program) m).outcome = outcome := by
  constructor
  · rintro ⟨n, last, rfl⟩
    obtain ⟨n', m, later, -, meet, -⟩ := exists_coupled r program n
    rw [after_of_isOver later last] at meet
    exact ⟨m, meet.isOver_eq.symm.trans last, meet.outcome_eq.symm⟩
  · rintro ⟨m, last, rfl⟩
    obtain ⟨n, m', -, later, meet, -⟩ := exists_coupled r program m
    rw [after_of_isOver later last] at meet
    exact ⟨n, meet.isOver_eq.trans last, meet.outcome_eq⟩

end State

open State (after exists_interpret_iff exists_coupled outcomes_explicitReturns)

/-- Returning last expressions is exactly a rewrite of programs, for what is emitted and for
what a run does: what it leaves behind when it ends, and what it has written at any time,
also when it goes on forever. -/
theorem implicit_return_is_rewrite (r : Run) (program : List Stmt) :
    generate (r.returning true).options r.file program =
        generate (r.returning false).options r.file (explicitReturns program) ∧
      (∀ outcome, (∃ steps, (r.returning true).interpret steps program = some outcome) ↔
        ∃ steps, (r.returning false).interpret steps (explicitReturns program) = some outcome) ∧
      (∀ n, ∃ m, (after (r.returning true) program n).texts =
        (after (r.returning false) (explicitReturns program) m).texts) ∧
      ∀ m, ∃ n, (after (r.returning true) program n).texts =
        (after (r.returning false) (explicitReturns program) m).texts := by
  refine ⟨(generate_explicitReturns r.options r.file program).symm, fun outcome => ?_,
    fun n => ?_, fun m => ?_⟩
  · rw [exists_interpret_iff, exists_interpret_iff]
    exact outcomes_explicitReturns r program outcome
  · obtain ⟨n', -, later, -, -, written, -⟩ := exists_coupled r program n
    exact written n later
  · obtain ⟨-, m', -, later, -, -, written⟩ := exists_coupled r program m
    exact written m later

/-- A function whose result is its last expression. -/
def greeting : List Stmt :=
  [.func "f" [] [.expr (.str "'hello'")],
    .expr (.call (.ident "print") [.call (.ident "f") []])]

/-- The run of this program. -/
def greetingRun : Run := { file := "a", options := {}, maxDepth := 5 }

/-- With its result made explicit, the program prints what it prints when last expressions
are returned. Otherwise it has no result. -/
theorem implicit_return_is_rewrite_greeting :
    (greetingRun.returning true).interpret 30 greeting = some ⟨"hello\n", "", none⟩ ∧
      (∃ steps, (greetingRun.returning false).interpret steps (explicitReturns greeting) =
        some ⟨"hello\n", "", none⟩) ∧
      (greetingRun.returning false).interpret 30 greeting = some ⟨"null\n", "", none⟩ := by
  have greets : (greetingRun.returning true).interpret 30 greeting =
      some ⟨"hello\n", "", none⟩ := by
    decide +kernel
  obtain ⟨-, outcomes, -⟩ := implicit_return_is_rewrite greetingRun greeting
  exact ⟨greets, (outcomes _).mp ⟨30, greets⟩, by decide +kernel⟩

end ScriptLang
