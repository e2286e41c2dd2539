import ScriptLang.Machine.Run
import ScriptLang.Proofs.Machine.Bodies
import ScriptLang.Proofs.Value.Errors

/-!
# Variables that a step reads and assigns

`reads` and `writes` list the variables that the next step of a state touches, in
the order in which it does. A variable is read where a name is evaluated. It is
assigned by an assignment or an update, by the header of a loop at the start of a
round, by a handler that catches something, and by a function of a nested block
when the block is entered.

The two main results hold of every state. A step leaves the frames that exist as
`assignAll` of its writes does, so nothing else is ever assigned; and it reports a
variable as undefined exactly when that variable is the first of those it touches
that is bound nowhere along the chain of frames.
-/

namespace ScriptLang

/-- The name that a control reports as undefined. -/
def Control.undefined? : Control → Option String
  | .raise (.error (.undefined name)) => some name
  | _ => none

/-- The assignments of functions to their names, as function values made in order. -/
def functionWrites : Nat → List Function → List (String × Value)
  | _, [] => []
  | first, f :: rest => (f.name, .closure first) :: functionWrites (first + 1) rest

@[simp] theorem map_fst_functionWrites (first : Nat) (functions : List Function) :
    (functionWrites first functions).map Prod.fst = functions.map Function.name := by
  induction functions generalizing first with
  | nil => rfl
  | cons f rest ih => simp [functionWrites, ih]

namespace Stmt

/-- The block that is entered when the statement begins. -/
def opened : Stmt → List Stmt
  | .doWhile _ body | .attempt body _ _ => body
  | _ => []

end Stmt

namespace Alternative

/-- The block that is entered when the condition before fails. -/
def opened : Alternative → List Stmt
  | .otherwise body => body
  | _ => []

end Alternative

/-- The block of the first arm, if it takes every subject. -/
def openedArm : List Arm → List Stmt
  | .mk [] body :: _ => body
  | _ => []

namespace State

/-- The variable that the next step reads. -/
def reads (s : State) : List String :=
  match s.control with
  | .eval (.ident name) => if (constant? name).isNone then [name] else []
  | _ => []

/-- The nested block that the next step enters; without statements if there is none. -/
def entered (s : State) : List Stmt :=
  match s.control, s.pending with
  | .exec (stmt :: _), _ => stmt.opened
  | .value v, .branch body rest :: _ => if v.truthy then body else rest.opened
  | .value v, .loopTest _ body :: _ => if v.truthy then body else []
  | .value v, .iterable header body :: _ =>
    match s.roundsOver header v with
    | .ok (_ :: _) => body
    | _ => []
  | .value _, .subject arms :: _ => openedArm arms
  | .value v, .pattern subject patterns body rest :: _ =>
    if v.strictEq subject then body else if patterns.isEmpty then openedArm rest else []
  | .flow .normal, .rounds _ (_ :: _) body :: _ => body
  | .flow .continue, .rounds _ (_ :: _) body :: _ => body
  | .raise u, .handler _ body :: _ => if u.caught?.isSome then body else []
  | _, _ => []

/-- What the next step assigns before it enters a block. -/
def assigned (s : State) : List (String × Value) :=
  match s.control, s.pending with
  | .value v, .store name :: _ => [(name, v)]
  | .value v, .update name op old :: _ => [(name, s.heap.binary op old v)]
  | .value v, .iterable header _ :: _ =>
    match s.roundsOver header v with
    | .ok (values :: _) => header.names.zip values
    | _ => []
  | .flow .normal, .rounds names (values :: _) _ :: _ => names.zip values
  | .flow .continue, .rounds names (values :: _) _ :: _ => names.zip values
  | .raise u, .handler name _ :: _ => (u.caught?.map fun v => (name, v)).toList
  | _, _ => []

/-- Everything the next step assigns. -/
def writes (s : State) : List (String × Value) :=
  s.assigned ++ functionWrites s.heap.closures.size (functionsOf s.entered)

/-- The names the next step reads or assigns. -/
def touched (s : State) : List String := s.reads ++ s.writes.map Prod.fst

/-- The next step does nothing but pass an unwinding by. -/
def passesBy (s : State) : Bool :=
  match s.control, s.pending with
  | .raise u, .handler .. :: _ => u.caught?.isNone
  | .raise _, _ => true
  | _, _ => false

/-- Variables are assigned along the current chain of frames, and this is done next. A
variable that is bound nowhere is reported instead, and no later one is assigned. -/
structure Assigns (s : State) (writes : List (String × Value)) (next : Control) (t : State) :
    Prop where
  frames : t.frames = s.frames.assignAll s.env writes
  control : t.control = (s.frames.unbound? s.env (writes.map Prod.fst)).elim next
    fun x => .raise (.error (.undefined x))
  pending : t.pending = s.pending
  env : t.env = s.env

namespace Assigns

variable {s t : State} {writes rest : List (String × Value)} {next : Control} {x : String}
  {v : Value}

theorem nothing (s : State) (next : Control) : Assigns s [] next (s.goto next) :=
  ⟨rfl, rfl, rfl, rfl⟩

/-- What is assigned first is assigned where the variable is found. -/
theorem assign {andThen : State → State} (h : ∀ id, s.frames.home? s.env x = some id →
      Assigns { s with frames := s.frames.bind id x v } rest next
        (andThen { s with frames := s.frames.bind id x v })) :
    Assigns s ((x, v) :: rest) next (s.assign x v andThen) := by
  cases home : s.frames.home? s.env x with
  | none =>
      rw [assign_of_unbound home]
      refine ⟨?_, ?_, rfl, rfl⟩
      · rw [Frames.assignAll, home]
        rfl
      · rw [List.map_cons, Frames.unbound?_cons_of_none home]
        rfl
  | some id =>
      rw [assign_of_home? home]
      obtain ⟨frames, control, pending, env⟩ := h id home
      refine ⟨?_, ?_, pending, env⟩
      · rw [frames, Frames.assignAll, home]
      · rw [control, Frames.unbound?_bind home, List.map_cons,
          Frames.unbound?_cons_of_some home]

end Assigns

theorem assigns_assign (s : State) (x : String) (v : Value) (next : Control) :
    Assigns s [(x, v)] next (s.assign x v fun s => s.goto next) :=
  .assign fun _ _ => .nothing _ next

theorem assigns_enter (s : State) (body : List Stmt) (functions : List Function) :
    Assigns s (functionWrites s.heap.closures.size functions) (.exec body)
      (s.enter body functions) := by
  induction functions generalizing s with
  | nil => exact .nothing s (.exec body)
  | cons f rest ih =>
      refine .assign fun id _ => ?_
      obtain ⟨frames, control, pending, env⟩ := ih { s with
        frames := s.frames.bind id f.name s.heap.nextClosure
        heap := s.heap.addClosure f s.env }
      simp only [Heap.addClosure, Array.size_push] at frames control
      exact ⟨frames, control, pending, env⟩

theorem assigns_enterBlock (s : State) (body : List Stmt) :
    Assigns s (functionWrites s.heap.closures.size (functionsOf body)) (.exec body)
      (s.enterBlock body) :=
  assigns_enter s body (functionsOf body)

theorem assigns_startRound (s : State) (body : List Stmt) (bindings : List (String × Value)) :
    Assigns s (bindings ++ functionWrites s.heap.closures.size (functionsOf body)) (.exec body)
      (s.startRound body bindings) := by
  induction bindings generalizing s with
  | nil => exact assigns_enterBlock s body
  | cons b rest ih => exact .assign fun id _ => ih { s with frames := s.frames.bind id b.1 b.2 }

/-- A handler assigns what it has caught to its name, then enters its block. -/
theorem assigns_caught (s : State) (name : String) (v : Value) (body : List Stmt) :
    Assigns s ((name, v) :: functionWrites s.heap.closures.size (functionsOf body)) (.exec body)
      (s.assign name v fun s => s.enterBlock body) :=
  .assign fun id _ => assigns_enterBlock { s with frames := s.frames.bind id name v } body

/-- A state that arises from these frames by these assignments along a chain, and that
reports a variable as undefined if one of them could not be made. -/
structure Performs (t : State) (env : Env) (fs : Frames) (writes : List (String × Value)) :
    Prop where
  frames : t.frames = fs.assignAll env writes
  undefined : t.control.undefined? = fs.unbound? env (writes.map Prod.fst)

/-- Where nothing else is reported, the report is the only one. -/
theorem Assigns.performs {s t : State} {writes : List (String × Value)} {next : Control}
    (h : Assigns s writes next t) (hc : next.undefined? = none) :
    Performs t s.env s.frames writes := by
  refine ⟨h.frames, ?_⟩
  rw [h.control]
  cases s.frames.unbound? s.env (writes.map Prod.fst) with
  | none => exact hc
  | some x => rfl

namespace Performs

variable {env : Env} {fs : Frames} {t : State}

/-- Nothing is assigned, and what follows is not the report of an undefined variable. -/
theorem nothing (hf : t.frames = fs) (hc : t.control.undefined? = none) :
    Performs t env fs [] :=
  ⟨hf, hc⟩

theorem fail {s : State} {e : RuntimeError} (h : ∀ x, e ≠ .undefined x) :
    Performs (s.fail e) s.env s.frames [] := by
  refine nothing rfl ?_
  cases e with
  | undefined x => exact absurd rfl (h x)
  | _ => rfl

theorem failOnValues {s : State} {e : RuntimeError} (h : e.isAboutValues = true) :
    Performs (s.fail e) s.env s.frames [] := by
  refine fail fun x hx => ?_
  rw [hx] at h
  cases h

end Performs

theorem performs_enterBlock (s : State) (body : List Stmt) :
    Performs (s.enterBlock body) s.env s.frames
      (functionWrites s.heap.closures.size (functionsOf body)) :=
  (assigns_enterBlock s body).performs rfl

theorem performs_alternative (s : State) (rest : Alternative) :
    Performs (s.alternative rest) s.env s.frames
      (functionWrites s.heap.closures.size (functionsOf rest.opened)) := by
  cases rest with
  | none => exact .nothing rfl rfl
  | otherwise body => exact performs_enterBlock s body
  | elif test body rest => exact .nothing rfl rfl

theorem performs_selectArm (s : State) (subject : Value) (arms : List Arm) :
    Performs (s.selectArm subject arms) s.env s.frames
      (functionWrites s.heap.closures.size (functionsOf (openedArm arms))) := by
  match arms with
  | [] => exact .nothing rfl rfl
  | .mk [] body :: _ => exact performs_enterBlock s body
  | .mk (_ :: _) _ :: _ => exact .nothing rfl rfl

theorem performs_produce (s : State) (p : Product) :
    Performs (s.produce p) s.env s.frames [] := by
  cases p <;> exact .nothing rfl rfl

/-! ## One step -/

theorem performs_giveResult (s : State) {result : Except RuntimeError Value}
    (h : FailsOnValues result) : Performs (s.giveResult result) s.env s.frames [] := by
  cases result with
  | ok v => exact .nothing rfl rfl
  | error e => exact .failOnValues (h e rfl)

theorem performs_store (s : State) (container key v : Value) :
    Performs (s.store container key v) s.env s.frames [] := by
  unfold store
  split
  next p _ => exact .nothing rfl rfl
  next e he => exact .failOnValues (Heap.failsOnValues_place _ container key e he)

theorem failsOnValues_roundsOver (s : State) (header : LoopHeader) (v : Value) :
    FailsOnValues (s.roundsOver header v) := by
  cases header with
  | single name => exact .map (Heap.failsOnValues_visited _ _) _
  | keyed key value => exact .map (Heap.failsOnValues_visitedEntries _ _) _

/-- Evaluating anything but a variable assigns nothing. -/
theorem performs_eval (s : State) {e : Expr} (h : e.name? = none) :
    Performs (s.eval e) s.env s.frames [] := by
  unfold eval
  split
  case h_1 => simp [Expr.name?] at h
  case h_2 =>
    split
    · exact .nothing rfl rfl
    · exact .fail fun _ h => nomatch h
  all_goals exact .nothing rfl rfl

/-- A variable that is bound somewhere has a value there. -/
theorem eval_ident_of_home? {s : State} {name : String} {id : Nat}
    (hc : constant? name = none) (h : s.frames.home? s.env name = some id) :
    ∃ v, (s.frames.frame id).find? name = some v ∧ s.eval (.ident name) = s.give v := by
  have hx := Frame.mem_names_iff.mp (Frames.home?_eq_some h).2
  obtain ⟨v, hv⟩ := Option.isSome_iff_exists.mp hx
  refine ⟨v, hv, ?_⟩
  simp [eval, hc, Frames.lookup_eq, h, hv]

theorem eval_ident_of_unbound {s : State} {name : String} (hc : constant? name = none)
    (h : s.frames.home? s.env name = none) :
    s.eval (.ident name) = s.fail (.undefined name) := by
  simp [eval, hc, Frames.lookup_eq, h]

theorem frames_eval_ident (s : State) (name : String) :
    (s.eval (.ident name)).frames = s.frames := by
  simp only [eval]
  split
  · rfl
  · split <;> rfl

theorem undefined_eval_ident (s : State) (name : String) :
    (s.eval (.ident name)).control.undefined? =
      s.frames.unbound? s.env (touched { s with control := .eval (.ident name) }) := by
  cases hc : constant? name with
  | some v => simp [eval, touched, reads, writes, assigned, entered, functionsOf, functionWrites,
      hc, give, goto, Control.undefined?]
  | none =>
      cases hh : s.frames.home? s.env name with
      | some id =>
          obtain ⟨v, _, he⟩ := eval_ident_of_home? hc hh
          simp [he, touched, reads, writes, assigned, entered, functionsOf, functionWrites, hc,
            give, goto, Control.undefined?, Frames.unbound?_cons_of_some hh]
      | none =>
          rw [eval_ident_of_unbound hc hh]
          simp [touched, reads, writes, assigned, entered, functionsOf, functionWrites, hc,
            fail, goto, Control.undefined?, Frames.unbound?_cons_of_none hh]

theorem performs_exec (s : State) (body : List Stmt) :
    Performs (s.exec body) s.env s.frames
      (writes { s with control := .exec body }) := by
  cases body with
  | nil => exact .nothing rfl rfl
  | cons stmt rest =>
      cases stmt with
      | doWhile test body => exact performs_enterBlock _ body
      | attempt body name handler => exact performs_enterBlock _ body
      | _ => exact .nothing rfl rfl

theorem performs_write (r : Run) (s : State) (stream : Stream) (line : String) :
    Performs (write r s stream line) s.env s.frames [] := by
  unfold write
  split <;> cases stream <;> exact .nothing rfl rfl

theorem performs_callBuiltin (r : Run) (s : State) (b : Builtin) (args : List Value)
    (hc : s.control.undefined? = none) :
    Performs (callBuiltin r s b args) s.env s.frames [] := by
  unfold callBuiltin
  split
  · exact performs_write r s .out _
  · exact performs_write r s .err _
  · split
    next p _ => exact performs_produce s p
    next e he => exact .failOnValues (Builtin.isAboutValues_of_call he)
    next => exact .nothing rfl hc

theorem performs_nextRound (s : State) (names : List String) (body : List Stmt)
    (values : List Value) (rest : List (List Value)) :
    Performs (s.nextRound names body (values :: rest)) s.env s.frames
      (names.zip values ++ functionWrites s.heap.closures.size (functionsOf body)) :=
  (assigns_startRound _ body (names.zip values)).performs rfl

theorem performs_resume (r : Run) (s : State) (v : Value) (p : Pending) (rest : List Pending) :
    Performs (resume r { s with control := .value v, pending := rest } v p) s.env s.frames
      (writes { s with control := .value v, pending := p :: rest }) := by
  cases p with
  | binaryRight op rhs =>
      unfold resume
      cases op <;> first | exact .nothing rfl rfl | (simp only; split <;> exact .nothing rfl rfl)
  | store name => exact (assigns_assign _ name v (.value v)).performs rfl
  | update name op old => exact (assigns_assign _ name _ (.value _)).performs rfl
  | elementValue container op value =>
      cases op with
      | none => exact .nothing rfl rfl
      | some op =>
          simp only [resume]
          split
          next => exact .nothing rfl rfl
          next e he => exact .failOnValues (Heap.failsOnValues_get _ container v e he)
  | storeElement container key => exact performs_store _ container key v
  | updateElement container key op old => exact performs_store _ container key _
  | callee name args => cases args <;> exact .nothing rfl rfl
  | args name f found rest => cases rest <;> exact .nothing rfl rfl
  | index container => exact performs_giveResult _ (Heap.failsOnValues_get _ container v)
  | slice container start =>
      simp only [resume]
      split
      next p _ => exact performs_produce _ p
      next e he => exact .failOnValues (Heap.failsOnValues_slice _ container start v e he)
  | mapValue found key rest => rcases rest with _ | ⟨⟨k, value⟩, rest⟩ <;> exact .nothing rfl rfl
  | listItem found rest => cases rest <;> exact .nothing rfl rfl
  | branch body rest =>
      simp only [resume, writes, assigned, entered, List.nil_append]
      split
      · exact performs_enterBlock _ body
      · exact performs_alternative _ rest
  | loopTest test body =>
      simp only [resume, writes, assigned, entered, List.nil_append]
      split
      · exact performs_enterBlock _ body
      · exact .nothing rfl rfl
  | iterable header body =>
      have heap : roundsOver { s with control := .value v, pending := rest } header v =
          s.roundsOver header v := by cases header <;> rfl
      have heap' :
          roundsOver { s with control := .value v, pending := .iterable header body :: rest }
            header v = s.roundsOver header v := by cases header <;> rfl
      simp only [resume, writes, assigned, entered, heap, heap']
      cases he : s.roundsOver header v with
      | error e => exact .failOnValues (failsOnValues_roundsOver s header v e he)
      | ok rounds =>
          cases rounds with
          | nil => exact .nothing rfl rfl
          | cons values rest => exact performs_nextRound _ header.names body values rest
  | subject arms => exact performs_selectArm _ v arms
  | pattern subject patterns body rest =>
      simp only [resume, writes, assigned, entered, List.nil_append]
      split
      · exact performs_enterBlock _ body
      · cases patterns with
        | nil => exact performs_selectArm _ subject rest
        | cons p patterns => exact .nothing rfl rfl
  | assertion line =>
      simp only [resume]
      split
      · exact .nothing rfl rfl
      · exact .fail (by rintro _ ⟨⟩)
  | _ => exact .nothing rfl rfl

theorem performs_proceed (s : State) (f : Flow) (p : Pending) (rest : List Pending) :
    Performs (proceed { s with control := .flow f, pending := rest } f p) s.env s.frames
      (writes { s with control := .flow f, pending := p :: rest }) := by
  cases p with
  | rounds names values body =>
      cases values with
      | nil => cases f <;> exact .nothing rfl rfl
      | cons v values =>
          cases f with
          | normal => exact performs_nextRound _ names body v values
          | «continue» => exact performs_nextRound _ names body v values
          | _ => exact .nothing rfl rfl
  | _ => cases f <;> exact .nothing rfl rfl

theorem performs_unwind_handler (s : State) {u : Unwinding} {v : Value} (hu : u.caught? = some v)
    (name : String) (body : List Stmt) (rest : List Pending) :
    Performs (unwind { s with control := .raise u, pending := rest } u (.handler name body))
      s.env s.frames
      (writes { s with control := .raise u, pending := .handler name body :: rest }) := by
  simp only [unwind, writes, assigned, entered, hu, Option.isSome_some, if_true, Option.map_some,
    Option.toList_some, List.singleton_append]
  exact (assigns_caught _ name v body).performs rfl

/-! ### Calls -/

/-- A call assigns nothing: at most it makes a new frame. -/
theorem frame_apply (r : Run) (s : State) (name : Option String) (f : Value) (args : List Value)
    (hc : s.control.undefined? = none) :
    (∀ j < s.frames.size, (apply r s name f args).frames.frame j = s.frames.frame j) ∧
      (apply r s name f args).control.undefined? = none := by
  have failed : ∀ e : RuntimeError, (∀ x, e ≠ .undefined x) →
      (∀ j < s.frames.size, (s.fail e).frames.frame j = s.frames.frame j) ∧
        (s.fail e).control.undefined? = none := by
    intro e he
    exact ⟨fun _ _ => rfl, (Performs.fail (s := s) he).undefined⟩
  cases f with
  | closure id =>
      simp only [apply]
      split
      next c _ =>
        unfold callClosure
        split
        · exact failed _ fun _ h => nomatch h
        · refine ⟨fun j hj => frame_enterBody hj, ?_⟩
          obtain ⟨statements, running⟩ := exists_control_enterBody r.options
            { s with pending := .caller s.env :: s.pending, depth := s.depth + 1 }
            (.ofCall c.function args) c.env c.function.body
          rw [running]
          rfl
      next => exact failed _ fun _ h => nomatch h
  | builtin b =>
      obtain ⟨hf, hu⟩ := performs_callBuiltin r s b args hc
      exact ⟨fun j _ => by rw [apply, hf]; rfl, hu⟩
  | _ => exact failed _ fun _ h => nomatch h

/-- What a step does to the variables: the frames that exist change as the writes of
the step say, and a variable is reported as undefined exactly if it is the first of
those touched that is bound nowhere. Passing an unwinding by touches nothing. -/
theorem next_accesses (r : Run) (s : State) :
    (∀ j < s.frames.size,
      (s.next r).frames.frame j = (s.frames.assignAll s.env s.writes).frame j) ∧
    (s.next r).control.undefined? =
      if s.passesBy then s.control.undefined? else s.frames.unbound? s.env s.touched := by
  obtain ⟨control, pending, env, depth, frames, heap, out, err⟩ := s
  have performed : ∀ {t : State} {w : List (String × Value)}, Performs t env frames w →
      (∀ j < frames.size, t.frames.frame j = (frames.assignAll env w).frame j) ∧
        t.control.undefined? = frames.unbound? env (w.map Prod.fst) :=
    fun h => ⟨fun j _ => by rw [h.frames], h.undefined⟩
  cases control with
  | eval e =>
      have other := performs_eval ⟨.eval e, pending, env, depth, frames, heap, out, err⟩ (e := e)
      cases e with
      | ident name =>
          exact ⟨fun j _ => by rw [next, frames_eval_ident]; rfl, undefined_eval_ident ..⟩
      | _ => exact performed (other rfl)
  | exec body => exact performed (performs_exec _ body)
  | apply name f args => exact frame_apply r _ name f args rfl
  | value v =>
      cases pending with
      | nil => exact performed (.nothing rfl rfl)
      | cons p rest => exact performed (performs_resume r _ v p rest)
  | flow f =>
      cases pending with
      | nil => cases f <;> exact performed (.nothing rfl rfl)
      | cons p rest => exact performed (performs_proceed _ f p rest)
  | raise u =>
      cases pending with
      | nil => exact ⟨fun _ _ => rfl, rfl⟩
      | cons p rest =>
          cases p with
          | handler name body =>
              cases caught : u.caught? with
              | some v =>
                  have stops : passesBy ⟨.raise u, .handler name body :: rest, env, depth, frames,
                      heap, out, err⟩ = false := by
                    simp [passesBy, caught]
                  rw [stops]
                  exact performed (performs_unwind_handler _ caught name body rest)
              | none => simp [next, unwind, writes, assigned, entered, passesBy, caught, goto,
                  functionsOf, functionWrites, Frames.assignAll]
          | _ => exact ⟨fun _ _ => rfl, rfl⟩

end State

end ScriptLang
