import ScriptLang.Proofs.Machine.CallDepth
import ScriptLang.Proofs.Parser.WellFormed

/-!
# Jumps of a run

A `break` or `continue` runs inside a loop of its own function body, because that is
where the grammar allows it. The pending work tells where code runs: inside a function if
the end of a call is pending, and inside a loop if a loop is, above the end of any call.
What is done next, and what pending work goes on with, is always allowed to stand in the
place where it will run.

So a jump finds its loop below it, with nothing but rests of blocks and handlers in
between, and passes those by one step at a time. No function body ends with a jump, and
neither does the program.
-/

namespace ScriptLang

namespace Pending

/-- The work is a loop whose body is under way. -/
def isLoop : Pending → Bool
  | .loopBody .. | .rounds .. => true
  | _ => false

/-- The work is what is left of a block, or the handler of one. -/
def isBlock : Pending → Bool
  | .statements _ | .handler .. => true
  | _ => false

end Pending

/-- The place of the code that runs above some pending work. -/
def placeAbove : List Pending → Parser.Place
  | [] => {}
  | .caller _ :: _ => ⟨true, false⟩
  | p :: rest => if p.isLoop then { placeAbove rest with inLoop := true } else placeAbove rest

theorem placeAbove_caller (env : Env) (rest : List Pending) :
    placeAbove (.caller env :: rest) = ⟨true, false⟩ := rfl

theorem placeAbove_of_not_loop {p : Pending} (h : p.isLoop = false) (call : p.isCaller = false)
    (rest : List Pending) : placeAbove (p :: rest) = placeAbove rest := by
  cases p with
  | loopBody | rounds => cases h
  | caller => cases call
  | _ => rfl

/-- Code that runs inside a loop has that loop below it, in the same call. -/
theorem exists_loop {pending : List Pending} (h : (placeAbove pending).inLoop = true) :
    ∃ above loop below, pending = above ++ loop :: below ∧ loop.isLoop = true ∧
      ∀ p ∈ above, p.isLoop = false ∧ p.isCaller = false := by
  induction pending with
  | nil => cases h
  | cons p rest ih =>
      cases loop : p.isLoop with
      | true => exact ⟨[], p, rest, rfl, loop, by simp⟩
      | false =>
          cases call : p.isCaller with
          | true =>
              cases p with
              | caller => cases h
              | _ => cases call
          | false =>
              rw [placeAbove_of_not_loop loop call] at h
              obtain ⟨above, l, below, rfl, isLoop, plain⟩ := ih h
              exact ⟨p :: above, l, below, rfl, isLoop,
                List.forall_mem_cons.mpr ⟨⟨loop, call⟩, plain⟩⟩

/-! ## Code in its place -/

/-- The work may go on in a place. The body of a loop goes on inside the loop. -/
def Pending.Fits (dollar : Bool) (place : Parser.Place) : Pending → Prop
  | .branch body rest => WellFormedBlock dollar place body ∧ rest.WellFormed dollar place
  | .loopTest _ body | .loopBody _ body | .iterable _ body | .rounds _ _ body =>
    WellFormedBlock dollar { place with inLoop := true } body
  | .subject arms => WellFormedArms dollar place arms
  | .pattern _ _ body rest => WellFormedBlock dollar place body ∧ WellFormedArms dollar place rest
  | .statements body | .handler _ body => WellFormedBlock dollar place body
  | .result => place.inFunction = true
  -- a last expression is kept right above the end of a call
  | .trailing _ => place.inFunction = true ∧ place.inLoop = false
  | _ => True

/-- A statement may end this way in a place. -/
def Flow.Fits (place : Parser.Place) : Flow → Prop
  | .normal => True
  | .break | .continue => place.inLoop = true
  | .returned _ => place.inFunction = true

/-- What is done next may be done in a place. -/
def Control.Fits (dollar : Bool) (place : Parser.Place) : Control → Prop
  | .exec body => WellFormedBlock dollar place body
  | .flow f => f.Fits place
  | .eval _ | .apply .. | .value _ | .raise _ => True

/-- All pending work may go on where it will. -/
def Fitting (dollar : Bool) : List Pending → Prop
  | [] => True
  | p :: rest => p.Fits dollar (placeAbove rest) ∧ Fitting dollar rest

section

variable {dollar : Bool} {place : Parser.Place}

/-- Work that comes to a value goes on with expressions alone. -/
theorem Pending.fits_of_yields {p : Pending} (h : p.yields = .value) : p.Fits dollar place := by
  cases p with
  | branch | loopTest | loopBody | iterable | rounds | subject | pattern | statements | handler
  | result | trailing => cases h
  | _ => trivial

theorem Stmt.WellFormed.of_mem {body : List Stmt} (h : WellFormedBlock dollar place body)
    {s : Stmt} (hs : s ∈ body) : s.WellFormed dollar place := by
  induction body with
  | nil => cases hs
  | cons s' rest ih =>
      obtain ⟨first, rest⟩ := h
      cases hs with
      | head => exact first
      | tail _ hs => exact ih rest hs

/-- A function that is defined in a block has a body that may stand in a function. -/
theorem wellFormed_of_mem_functionsOf {body : List Stmt} (h : WellFormedBlock dollar place body)
    {f : Function} (hf : f ∈ functionsOf body) : WellFormedBlock dollar ⟨true, false⟩ f.body :=
  (Stmt.WellFormed.of_mem h (mem_functionsOf.mp hf)).2.2

theorem wellFormedBlock_of_append {body rest : List Stmt}
    (h : WellFormedBlock dollar place (body ++ rest)) : WellFormedBlock dollar place body := by
  induction body with
  | nil => trivial
  | cons s body ih => exact ⟨h.1, ih h.2⟩

end

namespace State

/-! ## Steps -/

/-- What is pending, and what closures hold, may stand where it does. -/
structure Standing (dollar : Bool) (s : State) : Prop where
  pending : Fitting dollar s.pending
  closures : ∀ c ∈ s.heap.closures, WellFormedBlock dollar ⟨true, false⟩ c.function.body

/-- So may what is done next. -/
structure Placed (dollar : Bool) (s : State) : Prop extends Standing dollar s where
  control : s.control.Fits dollar (placeAbove s.pending)

variable {dollar : Bool} {s : State}

namespace Standing

theorem goto (h : Standing dollar s) {c : Control} (hc : c.Fits dollar (placeAbove s.pending)) :
    Placed dollar (s.goto c) :=
  ⟨⟨h.pending, h.closures⟩, hc⟩

theorem give (h : Standing dollar s) (v : Value) : Placed dollar (s.give v) := h.goto trivial

theorem finish (h : Standing dollar s) : Placed dollar s.finish := h.goto trivial

theorem fail (h : Standing dollar s) (e : RuntimeError) : Placed dollar (s.fail e) :=
  h.goto trivial

theorem push (h : Standing dollar s) {p : Pending} (hp : p.Fits dollar (placeAbove s.pending)) :
    Standing dollar { s with pending := p :: s.pending } :=
  ⟨⟨hp, h.pending⟩, h.closures⟩

theorem await (h : Standing dollar s) {p : Pending} (hp : p.Fits dollar (placeAbove s.pending))
    (e : Expr) : Placed dollar (s.await p e) :=
  (h.push hp).goto (c := .eval e) trivial

/-- Frames, containers and texts are of no account. -/
theorem congr {t : State} (h : Standing dollar s) (hp : t.pending = s.pending)
    (hc : t.heap.closures = s.heap.closures) : Standing dollar t :=
  ⟨hp ▸ h.pending, hc ▸ h.closures⟩

/-- What comes to a value stays inside an expression. -/
theorem does {j : Job} {w : Wait} {t : State} (h : Standing dollar s) (d : j.Does w s t)
    (hw : w = .value) : Placed dollar t := by
  induction d with
  | @goto w s c yields quiet =>
      rw [hw] at yields
      refine h.goto ?_
      cases c with
      | eval | apply | value => trivial
      | exec | flow => cases yields
      | raise => cases quiet
  | raise => exact h.goto trivial
  | push plain hy _ _ _ _ ih =>
      have comes := hy.trans hw
      exact ih (h.push (Pending.fits_of_yields comes)) (Pending.awaits_of_yields comes plain)
  | close => cases hw
  | write p _ _ ih => exact ih (h.congr rfl (by cases p <;> rfl)) hw
  | bind _ _ _ ih | addList _ _ ih | addMap _ _ ih | print _ _ _ ih => exact ih (h.congr rfl rfl) hw

theorem addClosure (h : Standing dollar s) {f : Function}
    (hf : WellFormedBlock dollar ⟨true, false⟩ f.body) (env : Env) :
    Standing dollar { s with heap := s.heap.addClosure f env } := by
  refine ⟨h.pending, ?_⟩
  intro c hc
  rcases Array.mem_push.mp hc with old | rfl
  · exact h.closures c old
  · exact hf

/-- Where a variable is bound does not matter. -/
theorem assign (h : Standing dollar s) {name : String} {v : Value} {andThen : State → State}
    (later : ∀ id, Placed dollar (andThen { s with frames := s.frames.bind id name v })) :
    Placed dollar (s.assign name v andThen) := by
  cases home : s.frames.home? s.env name with
  | none =>
      rw [assign_of_unbound home]
      exact h.fail _
  | some id =>
      rw [assign_of_home? home]
      exact later id

theorem enter (h : Standing dollar s) {body : List Stmt} {functions : List Function}
    (hb : WellFormedBlock dollar (placeAbove s.pending) body)
    (hf : ∀ f ∈ functions, WellFormedBlock dollar ⟨true, false⟩ f.body) :
    Placed dollar (s.enter body functions) := by
  induction functions generalizing s with
  | nil => exact h.goto hb
  | cons f rest ih =>
      obtain ⟨first, others⟩ := List.forall_mem_cons.mp hf
      refine h.assign fun id => ?_
      have bound : Standing dollar
          { s with frames := s.frames.bind id f.name s.heap.nextClosure } := h.congr rfl rfl
      exact ih (bound.addClosure first s.env) hb others

theorem enterBlock (h : Standing dollar s) {body : List Stmt}
    (hb : WellFormedBlock dollar (placeAbove s.pending) body) : Placed dollar (s.enterBlock body) :=
  h.enter hb fun _ hf => wellFormed_of_mem_functionsOf hb hf

theorem alternative (h : Standing dollar s) {rest : Alternative}
    (hr : rest.WellFormed dollar (placeAbove s.pending)) : Placed dollar (s.alternative rest) := by
  cases rest with
  | none => exact h.finish
  | otherwise body => exact h.enterBlock hr
  | elif test body rest =>
      obtain ⟨-, hb, hr⟩ := hr
      exact h.await (p := .branch body rest) ⟨hb, hr⟩ test

theorem selectArm (h : Standing dollar s) (subject : Value) {arms : List Arm}
    (ha : WellFormedArms dollar (placeAbove s.pending) arms) :
    Placed dollar (s.selectArm subject arms) := by
  match arms with
  | [] => exact h.finish
  | .mk [] body :: rest => exact h.enterBlock ha.2.1
  | .mk (p :: patterns) body :: rest =>
      obtain ⟨-, hb, -, hr⟩ := ha
      exact h.await (p := .pattern subject patterns body rest) ⟨hb, hr⟩ p

theorem startRound (h : Standing dollar s) {body : List Stmt}
    (hb : WellFormedBlock dollar (placeAbove s.pending) body) (bindings : List (String × Value)) :
    Placed dollar (s.startRound body bindings) := by
  induction bindings generalizing s with
  | nil => exact h.enterBlock hb
  | cons b rest ih =>
      refine h.assign fun id => ?_
      have bound : Standing dollar { s with frames := s.frames.bind id b.1 b.2 } :=
        h.congr rfl rfl
      exact ih bound hb

/-- The body of a loop runs above the loop. -/
theorem nextRound (h : Standing dollar s) {names : List String} {body : List Stmt}
    (hb : WellFormedBlock dollar { placeAbove s.pending with inLoop := true } body)
    (rounds : List (List Value)) : Placed dollar (s.nextRound names body rounds) := by
  cases rounds with
  | nil => exact h.finish
  | cons values rest =>
      exact (h.push (p := .rounds names rest body) hb).startRound hb _

theorem enterLoop (h : Standing dollar s) {test : Expr} {body : List Stmt}
    (hb : WellFormedBlock dollar { placeAbove s.pending with inLoop := true } body) :
    Placed dollar ({ s with pending := .loopBody test body :: s.pending }.enterBlock body) := by
  exact (h.push (p := .loopBody test body) hb).enterBlock hb

theorem begin (h : Standing dollar s) {stmt : Stmt}
    (hs : stmt.WellFormed dollar (placeAbove s.pending)) : Placed dollar (s.begin stmt) := by
  cases stmt with
  | expr e => exact h.await (p := .discard) trivial e
  | cond test body rest =>
      obtain ⟨-, hb, hr⟩ := hs
      exact h.await (p := .branch body rest) ⟨hb, hr⟩ test
  | whileLoop test body =>
      exact h.await (p := .loopTest test body) hs.2 test
  | doWhile test body => exact h.enterLoop hs.2
  | forEach header iterable body =>
      exact h.await (p := .iterable header body) hs.2.2 iterable
  | select subject arms =>
      exact h.await (p := .subject arms) hs.2 subject
  | func | outer => exact h.finish
  | ret value => exact h.await (p := .result) hs.1 value
  | «break» => exact h.goto (c := .flow .break) hs
  | «continue» => exact h.goto (c := .flow .continue) hs
  | assert test line => exact h.await (p := .assertion line) trivial test
  | throw value => exact h.await (p := .thrown) trivial value
  | attempt body name handler =>
      obtain ⟨hb, -, hh⟩ := hs
      exact (h.push (p := .handler name handler) hh).enterBlock hb

theorem exec (h : Standing dollar s) {body : List Stmt}
    (hb : WellFormedBlock dollar (placeAbove s.pending) body) : Placed dollar (s.exec body) := by
  cases body with
  | nil => exact h.finish
  | cons stmt rest =>
      obtain ⟨hs, hr⟩ := hb
      exact (h.push (p := .statements rest) hr).begin hs

/-- Pending work that gets its value goes on in its place. -/
theorem resume (h : Standing dollar s) (r : Run) (v : Value) {p : Pending}
    (hp : p.Fits dollar (placeAbove s.pending)) : Placed dollar (State.resume r s v p) := by
  cases p with
  | discard => exact h.finish
  | branch body rest =>
      obtain ⟨hb, hr⟩ := hp
      rw [State.resume]
      split
      · exact h.enterBlock hb
      · exact h.alternative hr
  | loopTest test body =>
      rw [State.resume]
      split
      · exact h.enterLoop hp
      · exact h.finish
  | iterable header body =>
      rw [State.resume]
      split
      · exact h.nextRound hp _
      · exact h.fail _
  | subject arms => exact h.selectArm v hp
  | pattern subject patterns body rest =>
      obtain ⟨hb, hr⟩ := hp
      cases patterns with
      | nil =>
          rw [State.resume]
          split
          · exact h.enterBlock hb
          · exact h.selectArm subject hr
      | cons p patterns =>
          rw [State.resume]
          split
          · exact h.enterBlock hb
          · exact h.await (p := .pattern subject patterns body rest) ⟨hb, hr⟩ p
  | result => exact h.goto (c := .flow (.returned v)) hp
  | thrown => exact h.goto trivial
  | assertion line =>
      rw [State.resume]
      split
      · exact h.finish
      · exact h.fail _
  | statements | trailing | loopBody | rounds | handler | caller => exact h.give v
  | _ => exact h.does (.resume r v rfl) rfl

/-- A loop takes in the jumps that are its own. -/
theorem proceed (h : Standing dollar s) {p : Pending} (call : p.isCaller = false)
    (hp : p.Fits dollar (placeAbove s.pending)) {f : Flow}
    (hf : f.Fits (placeAbove (p :: s.pending))) : Placed dollar (s.proceed f p) := by
  have pass : p.isLoop = false → Placed dollar (s.goto (.flow f)) := by
    intro loop
    rw [placeAbove_of_not_loop loop call] at hf
    exact h.goto hf
  cases p with
  | statements rest =>
      cases f with
      | normal => exact h.goto (c := .exec rest) hp
      | _ => exact pass rfl
  | trailing last =>
      cases f with
      | normal => exact h.await (p := .result) hp.1 last
      | _ => exact pass rfl
  | loopBody test body =>
      cases f with
      | normal | «continue» => exact h.await (p := .loopTest test body) hp test
      | «break» => exact h.finish
      | returned v => exact h.goto (c := .flow (.returned v)) hf
  | rounds names rest body =>
      cases f with
      | normal | «continue» => exact h.nextRound hp rest
      | «break» => exact h.finish
      | returned v => exact h.goto (c := .flow (.returned v)) hf
  | caller env => cases call
  | _ => exact pass rfl

/-- A handler runs where the block that it belongs to did. -/
theorem unwind (h : Standing dollar s) (u : Unwinding) {p : Pending} (call : p.isCaller = false)
    (hp : p.Fits dollar (placeAbove s.pending)) : Placed dollar (s.unwind u p) := by
  cases p with
  | handler name body =>
      rw [State.unwind]
      split
      next v _ =>
        refine h.assign fun id => ?_
        have caught : Standing dollar { s with frames := s.frames.bind id name v } :=
          h.congr rfl rfl
        exact caught.enterBlock hp
      next => exact h.goto trivial
  | caller env => cases call
  | _ => exact h.goto trivial

/-- After a call, the code of the caller goes on with a value, or an unwinding does. -/
theorem leave (h : Standing dollar s) (env : Env) {c : Control}
    (hc : c.Fits dollar (placeAbove s.pending)) : Placed dollar (s.leave env c) :=
  ⟨h.congr rfl rfl, hc⟩

/-- A body may be entered where its statements may stand. A last expression of it is kept
only inside a function, and there no loop is around the body. -/
theorem enterBody (h : Standing dollar s) (o : Options) (frame : Frame) (outer : Env)
    {body : List Stmt} (hb : WellFormedBlock dollar (placeAbove s.pending) body)
    (place : s.depth = 0 ∨ placeAbove s.pending = ⟨true, false⟩) :
    Placed dollar (State.enterBody o s frame outer body) := by
  have closures : ∀ c ∈ (State.enterBody o s frame outer body).heap.closures,
      WellFormedBlock dollar ⟨true, false⟩ c.function.body := by
    intro c hc
    rcases closures_enterBody hc with old | ⟨f, mem, rfl⟩
    · exact h.closures c old
    · exact wellFormed_of_mem_functionsOf hb mem
  rcases enterBody_runs o s frame outer body with
    ⟨running, pending⟩ | ⟨rest, last, ends, deep, running, pending⟩
  · refine ⟨⟨pending ▸ h.pending, closures⟩, ?_⟩
    rw [running, pending]
    exact hb
  · have function := place.resolve_left deep
    refine ⟨⟨?_, closures⟩, ?_⟩
    · rw [pending]
      exact ⟨by rw [function]; exact ⟨rfl, rfl⟩, h.pending⟩
    · rw [running, pending, placeAbove_of_not_loop rfl rfl]
      exact wellFormedBlock_of_append (ends ▸ hb)

theorem callClosure (h : Standing dollar s) (r : Run) {c : Closure}
    (hc : WellFormedBlock dollar ⟨true, false⟩ c.function.body) (args : List Value) :
    Placed dollar (State.callClosure r s c args) := by
  rw [State.callClosure]
  split
  · exact h.fail _
  · have called : Standing dollar
        { s with pending := .caller s.env :: s.pending, depth := s.depth + 1 } :=
      ⟨⟨trivial, h.pending⟩, h.closures⟩
    exact called.enterBody r.options _ _ hc (.inr rfl)

end Standing

theorem Placed.callBuiltin (h : Placed dollar s) (r : Run) (b : Builtin) (args : List Value) :
    Placed dollar (State.callBuiltin r s b args) := by
  rcases Job.Does.callBuiltin (j := s.control.job) (s := s) r b args with same | d
  · rw [same]
    exact h
  · exact h.toStanding.does d rfl

/-- Every step keeps all code in its place. -/
theorem Placed.next (h : Placed dollar s) (r : Run) : Placed dollar (s.next r) := by
  obtain ⟨control, pending, env, depth, frames, heap, out, err⟩ := s
  obtain ⟨standing, fits⟩ := h
  have below : ∀ {p : Pending} {rest : List Pending}, pending = p :: rest →
      p.Fits dollar (placeAbove rest) ∧
        Standing dollar ⟨control, rest, env, depth, frames, heap, out, err⟩ := by
    rintro p rest rfl
    obtain ⟨hp, hr⟩ := standing.pending
    exact ⟨hp, hr, standing.closures⟩
  cases control with
  | eval e => exact standing.does (.eval rfl) rfl
  | exec body => exact standing.exec fits
  | apply name f args =>
      cases f with
      | closure id =>
          simp only [State.next, State.apply]
          split
          next c found =>
            exact standing.callClosure r (standing.closures c (Array.mem_of_getElem? found)) args
          next => exact standing.fail _
      | builtin b => exact Placed.callBuiltin ⟨standing, fits⟩ r b args
      | _ => exact standing.fail _
  | value v =>
      cases pending with
      | nil => exact ⟨standing, fits⟩
      | cons p rest =>
          obtain ⟨hp, later⟩ := below rfl
          exact later.resume r v hp
  | flow f =>
      cases pending with
      | nil => exact ⟨standing, fits⟩
      | cons p rest =>
          obtain ⟨hp, later⟩ := below rfl
          cases call : p.isCaller with
          | false => exact later.proceed call hp fits
          | true =>
              cases p with
              | caller env' => cases f <;> exact later.leave env' trivial
              | _ => cases call
  | raise u =>
      cases pending with
      | nil => exact ⟨standing, fits⟩
      | cons p rest =>
          obtain ⟨hp, later⟩ := below rfl
          cases call : p.isCaller with
          | false => exact later.unwind u call hp
          | true =>
              cases p with
              | caller env' => exact later.leave env' trivial
              | _ => cases call

/-- In a run of a well-formed program all code is in its place. -/
theorem placed_after {program : List Stmt} (h : WellFormed dollar program) (r : Run) (n : Nat) :
    Placed dollar (after r program n) := by
  induction n with
  | zero =>
      have start : Standing dollar ⟨.flow .normal, [], [0], 0, #[builtinFrame], {}, "", ""⟩ :=
        ⟨trivial, by simp⟩
      exact start.enterBody r.options _ _ h (.inl rfl)
  | succ n ih => exact ih.next r

/-! ## Where jumps end -/

/-- A loop with no other one above it is around all the work above it. -/
theorem inLoop_above {above below : List Pending} {loop : Pending} (isLoop : loop.isLoop = true)
    (plain : ∀ p ∈ above, p.isLoop = false ∧ p.isCaller = false) :
    (placeAbove (above ++ loop :: below)).inLoop = true := by
  induction above with
  | nil =>
      cases loop with
      | loopBody | rounds => rfl
      | _ => cases isLoop
  | cons p above ih =>
      obtain ⟨⟨notLoop, call⟩, later⟩ := List.forall_mem_cons.mp plain
      rw [List.cons_append, placeAbove_of_not_loop notLoop call]
      exact ih later

/-- Of the work that waits for the end of a statement, only blocks are left above a loop
where no other loop and no call ends: no last expression is kept inside of a loop. -/
theorem isBlock_of_stack {layout : Layout} {a : Activation} {above below : List Pending}
    {loop : Pending} (h : layout.Stack a .flow (above ++ loop :: below))
    (fitting : Fitting dollar (above ++ loop :: below)) (isLoop : loop.isLoop = true)
    (plain : ∀ p ∈ above, p.isLoop = false ∧ p.isCaller = false) :
    ∀ p ∈ above, p.isBlock = true := by
  induction above with
  | nil => simp
  | cons p above ih =>
      obtain ⟨⟨notLoop, call⟩, later⟩ := List.forall_mem_cons.mp plain
      obtain ⟨awaits, -, -, stack⟩ := h.of_work call
      obtain ⟨fits, fitting⟩ := fitting
      have block : p.isBlock = true ∧ p.yields = .flow := by
        cases p with
        | statements | handler => exact ⟨rfl, rfl⟩
        | trailing last =>
            have inside : (placeAbove (above ++ loop :: below)).inLoop = true :=
              inLoop_above isLoop later
            exact Bool.noConfusion (inside.symm.trans fits.2)
        | loopBody | rounds => cases notLoop
        | caller => cases call
        | _ => cases awaits
      rw [block.2] at stack
      exact List.forall_mem_cons.mpr ⟨block.1, ih stack fitting later⟩

/-- A jump passes by a block and its handler. -/
theorem next_block (r : Run) {p : Pending} (h : p.isBlock = true) {jump : Flow}
    (hj : jump ≠ .normal) {rest : List Pending} (hs : s.control = .flow jump)
    (hp : s.pending = p :: rest) :
    s.next r = { s with control := .flow jump, pending := rest } := by
  rw [State.next, hs, hp]
  cases p with
  | statements body =>
      cases jump with
      | normal => exact absurd rfl hj
      | _ => rfl
  | handler => rfl
  | _ => cases h

/-- A loop goes on: it tests its condition again, or begins its next round. -/
def goOn (s : State) : Pending → State
  | .loopBody test body => s.await (.loopTest test body) test
  | .rounds names rounds body => s.nextRound names body rounds
  | _ => s

/-- A break ends the loop that it meets. -/
theorem next_break (r : Run) {loop : Pending} (h : loop.isLoop = true) {below : List Pending}
    (hs : s.control = .flow .break) (hp : s.pending = loop :: below) :
    s.next r = { s with control := .flow .normal, pending := below } := by
  rw [State.next, hs, hp]
  cases loop with
  | loopBody | rounds => rfl
  | _ => cases h

/-- The loop that a continue meets goes on. -/
theorem next_continue (r : Run) {loop : Pending} (h : loop.isLoop = true) {below : List Pending}
    (hs : s.control = .flow .continue) (hp : s.pending = loop :: below) :
    s.next r = { s with pending := below }.goOn loop := by
  rw [State.next, hs, hp]
  cases loop with
  | loopBody | rounds => rfl
  | _ => cases h

/-- The jump that the step number `n` begins reaches the innermost loop around it, without
leaving its call. It passes by the statements `rest` after it and by blocks, in one step each,
and nothing else happens meanwhile: no handler of theirs runs. -/
structure JumpReaches (r : Run) (program : List Stmt) (n : Nat) (jump : Flow) (rest : List Stmt)
    (blocks : List Pending) (loop : Pending) (below : List Pending) : Prop where
  pending : (after r program n).pending = blocks ++ loop :: below
  isBlock : ∀ p ∈ blocks, p.isBlock = true
  isLoop : loop.isLoop = true
  passes : ∀ k ≤ blocks.length + 1, after r program (n + 1 + k) =
    { after r program n with
      control := .flow jump
      pending := (.statements rest :: blocks).drop k ++ loop :: below }

variable {r : Run} {program : List Stmt} {n : Nat}

/-- A jump passes by blocks. -/
theorem after_blocks {jump : Flow} (hj : jump ≠ .normal) {blocks below : List Pending}
    (hb : ∀ p ∈ blocks, p.isBlock = true)
    (h : after r program n = { s with control := .flow jump, pending := blocks ++ below }) :
    ∀ k ≤ blocks.length, after r program (n + k) =
      { s with control := .flow jump, pending := blocks.drop k ++ below } := by
  intro k
  induction k with
  | zero => exact fun _ => h
  | succ k ih =>
      intro le
      have here := ih (Nat.le_of_succ_le le)
      rw [List.drop_eq_getElem_cons le] at here
      show (after r program (n + k)).next r = _
      rw [here]
      exact next_block r (hb _ (List.getElem_mem le)) hj rfl rfl

/-- A statement that is a jump, which the grammar allows inside a loop, reaches one. -/
theorem exists_jumpReaches (fitting : Fitting dollar (after r program n).pending)
    {jump : Flow} {stmt : Stmt} {rest : List Stmt}
    (hs : (after r program n).control = .exec (stmt :: rest))
    (begins : ∀ s : State, s.begin stmt = s.goto (.flow jump)) (hj : jump ≠ .normal)
    (inLoop : (placeAbove (after r program n).pending).inLoop = true) :
    ∃ blocks loop below, JumpReaches r program n jump rest blocks loop below := by
  obtain ⟨blocks, loop, below, pending, isLoop, plain⟩ := exists_loop inLoop
  obtain ⟨layout, a, w, ground, yields, -⟩ := exists_sound r program n
  have stack := ground.stack
  obtain rfl : w = .flow := by
    rw [hs] at yields
    exact of_decide_eq_true yields
  rw [pending] at stack fitting
  have isBlock := isBlock_of_stack stack fitting isLoop plain
  have first : after r program (n + 1) = { after r program n with
      control := .flow jump
      pending := (.statements rest :: blocks) ++ loop :: below } := by
    show (after r program n).next r = _
    rw [State.next, hs]
    show State.begin _ stmt = _
    rw [begins, pending]
    rfl
  refine ⟨blocks, loop, below, pending, isBlock, isLoop, ?_⟩
  exact after_blocks hj (List.forall_mem_cons.mpr ⟨rfl, isBlock⟩) first

/-- When all blocks are passed by, the loop takes in the jump. -/
theorem JumpReaches.after_loop {jump : Flow} {rest : List Stmt} {blocks below : List Pending}
    {loop : Pending} (h : JumpReaches r program n jump rest blocks loop below) :
    after r program (n + blocks.length + 3) =
      State.next r
        { after r program n with control := .flow jump, pending := loop :: below } := by
  have last := h.passes (blocks.length + 1) (Nat.le_refl _)
  rw [List.drop_eq_nil_of_le (by simp), List.nil_append] at last
  have steps : n + blocks.length + 2 = n + 1 + (blocks.length + 1) := by omega
  show (after r program (n + blocks.length + 2)).next r = _
  rw [steps, last]

/-- What holds of jumps at the step number `n` of a run. -/
structure JumpsStayInLoops (r : Run) (program : List Stmt) (n : Nat) : Prop where
  /-- The body of a function ends normally, with a value that it returns, or unwinding. -/
  body_ends : ∀ env rest, (after r program n).pending = .caller env :: rest →
    (after r program n).control.isResult = true →
    (after r program n).control = .flow .normal ∨
      (∃ v, (after r program n).control = .flow (.returned v)) ∨
      ∃ u, (after r program n).control = .raise u
  /-- The program does not end with a jump, and does not return. -/
  program_ends : (after r program n).pending = [] →
    ∀ f, (after r program n).control = .flow f → f = .normal
  /-- A break ends the innermost loop around it. -/
  break_ends : ∀ rest, (after r program n).control = .exec (.break :: rest) →
    ∃ blocks loop below, JumpReaches r program n .break rest blocks loop below ∧
      after r program (n + blocks.length + 3) =
        { after r program n with control := .flow .normal, pending := below }
  /-- The innermost loop around a continue goes on. -/
  continue_goes_on : ∀ rest, (after r program n).control = .exec (.continue :: rest) →
    ∃ blocks loop below, JumpReaches r program n .continue rest blocks loop below ∧
      after r program (n + blocks.length + 3) =
        { after r program n with control := .flow .continue, pending := below }.goOn loop

theorem Placed.body_ends (placed : Placed dollar (after r program n)) {env : Env}
    {rest : List Pending} (hp : (after r program n).pending = .caller env :: rest)
    (ends : (after r program n).control.isResult = true) :
    (after r program n).control = .flow .normal ∨
      (∃ v, (after r program n).control = .flow (.returned v)) ∨
      ∃ u, (after r program n).control = .raise u := by
  obtain ⟨layout, a, sound⟩ := exists_sound r program n
  have fits := placed.control
  rw [hp, placeAbove_caller] at fits
  cases hs : (after r program n).control with
  | value v => exact absurd hs (sound.control_of_caller hp v)
  | raise u => exact .inr (.inr ⟨u, rfl⟩)
  | flow f =>
      rw [hs] at fits
      cases f with
      | normal => exact .inl rfl
      | returned v => exact .inr (.inl ⟨v, rfl⟩)
      | «break» | «continue» => cases fits
  | _ =>
      rw [hs] at ends
      cases ends

theorem Placed.program_ends (placed : Placed dollar s) (hp : s.pending = []) {f : Flow}
    (hs : s.control = .flow f) : f = .normal := by
  have fits := placed.control
  rw [hp, hs] at fits
  cases f with
  | normal => rfl
  | _ => cases fits

theorem Placed.break_ends (placed : Placed dollar (after r program n)) {rest : List Stmt}
    (hs : (after r program n).control = .exec (.break :: rest)) :
    ∃ blocks loop below, JumpReaches r program n .break rest blocks loop below ∧
      after r program (n + blocks.length + 3) =
        { after r program n with control := .flow .normal, pending := below } := by
  have fits := placed.control
  rw [hs] at fits
  obtain ⟨blocks, loop, below, reaches⟩ :=
    exists_jumpReaches placed.pending hs (fun _ => rfl) (by simp) fits.1
  refine ⟨blocks, loop, below, reaches, ?_⟩
  exact reaches.after_loop.trans (next_break r reaches.isLoop rfl rfl)

theorem Placed.continue_goes_on (placed : Placed dollar (after r program n)) {rest : List Stmt}
    (hs : (after r program n).control = .exec (.continue :: rest)) :
    ∃ blocks loop below, JumpReaches r program n .continue rest blocks loop below ∧
      after r program (n + blocks.length + 3) =
        { after r program n with control := .flow .continue, pending := below }.goOn loop := by
  have fits := placed.control
  rw [hs] at fits
  obtain ⟨blocks, loop, below, reaches⟩ :=
    exists_jumpReaches placed.pending hs (fun _ => rfl) (by simp) fits.1
  refine ⟨blocks, loop, below, reaches, ?_⟩
  exact reaches.after_loop.trans (next_continue r reaches.isLoop rfl rfl)

end State

/-- No jump of a program that is read from a text escapes from the loops of the function
that it is written in, whatever the options and however long the program runs. -/
theorem jumps_stay_in_loops {o : Options} {source : String} {program : List Stmt}
    (h : parse o source = .ok program) (r : Run) (n : Nat) :
    State.JumpsStayInLoops r program n := by
  obtain ⟨start, rest, hc, hr⟩ := exists_run_of_parse h
  have placed : (State.after r program n).Placed o.dollarIdentifiers :=
    State.placed_after (Parser.Yields.program _ start (genuine_cursor hc) _ _ hr).1 r n
  exact ⟨fun _ _ hp ends => placed.body_ends hp ends, fun hp _ hs => placed.program_ends hp hs,
    fun _ hs => placed.break_ends hs, fun _ hs => placed.continue_goes_on hs⟩

/-- A function that leaves its loop from inside a handled block. -/
def leavesHandledBlock : List Stmt :=
  [.func "f" [] [.whileLoop (.ident "true") [.attempt [.break] "e" [.continue]]],
    .expr (.call (.ident "f") [])]

/-- The run of this program. -/
def leavesHandledBlockRun : Run := { file := "a", options := {}, maxDepth := 5 }

theorem jumps_stay_in_loops_leavesHandledBlock :
    parse {} ("fn f()\n while true\n  try\n   break\n  catch e\n   continue\n  end\n" ++
        " end\nend\nf()\n") = .ok leavesHandledBlock ∧
      (State.after leavesHandledBlockRun leavesHandledBlock 11).control = .exec [.break] ∧
      State.JumpsStayInLoops leavesHandledBlockRun leavesHandledBlock 11 := by
  have read : parse {} ("fn f()\n while true\n  try\n   break\n  catch e\n   continue\n  end\n" ++
      " end\nend\nf()\n") = .ok leavesHandledBlock := by
    cbv
  exact ⟨read, by rfl, jumps_stay_in_loops read leavesHandledBlockRun 11⟩

end ScriptLang
