import ScriptLang.Proofs.Machine.Scoping

/-!
# What a step does to calls

Work of one activation goes on in the same frame and at the same depth: it only puts
more work of its own on top of what is pending. `Continues` says this, and holds of
every change that a step makes inside an activation. The frame changes where a closure
is called and where a call ends, and nowhere else; `Transition` lists everything that a
step can do to the calls in progress, and `Sound.transition` says that a step of a run
does one of it.

None of this raises a stack overflow but the call that finds no room.
-/

namespace ScriptLang

namespace Control

/-- Too many calls are in progress. -/
def isOverflow : Control → Bool
  | raise (.error .stackOverflow) => true
  | _ => false

end Control

namespace State

/-- The next step calls a closure. -/
def callsClosure (s : State) : Bool := s.callee?.isSome

/-- Something is called by what is done next, never by a result. -/
theorem callsClosure_of_isResult {s : State} (h : s.control.isResult = true) :
    s.callsClosure = false := by
  unfold callsClosure callee?
  split
  next hc => simp [hc, Control.isResult] at h
  next => rfl

/-- The activation goes on from one state to another, and raises no stack overflow. -/
structure Continues (s t : State) : Prop where
  env : t.env = s.env
  depth : t.depth = s.depth
  pending : ∃ work, t.pending = work ++ s.pending ∧ ∀ p ∈ work, p.isCaller = false
  control : s.control.isOverflow = false → t.control.isOverflow = false

namespace Continues

variable {s t : State}

theorem goto {c : Control} (h : s.control.isOverflow = false → c.isOverflow = false) :
    Continues s (s.goto c) :=
  ⟨rfl, rfl, ⟨[], rfl, by simp⟩, h⟩

theorem refl (s : State) : Continues s s := ⟨rfl, rfl, ⟨[], rfl, by simp⟩, id⟩

/-- Work that was put on top stays work of the activation. -/
theorem under {p : Pending} (h : Continues { s with pending := p :: s.pending } t)
    (hp : p.isCaller = false) : Continues s t := by
  obtain ⟨work, hwork, plain⟩ := h.pending
  refine ⟨h.env, h.depth, ⟨work ++ [p], by simpa using hwork, ?_⟩, h.control⟩
  intro q hq
  rcases List.mem_append.mp hq with hq | hq
  · exact plain q hq
  · rw [List.mem_singleton.mp hq]
    exact hp

/-- Frames, containers and texts are of no account. -/
theorem congr {frames : Frames} {heap : Heap} {out err : String}
    (h : Continues { s with frames := frames, heap := heap, out := out, err := err } t) :
    Continues s t :=
  ⟨h.env, h.depth, h.pending, h.control⟩

/-- Each small change of a step goes on in the activation. -/
theorem of_does {j : Job} {w : Wait} (d : j.Does w s t) : Continues s t := by
  induction d with
  | @goto w s c _ quiet =>
      refine goto fun _ => ?_
      cases c with
      | raise => cases quiet
      | _ => rfl
  | raise raised =>
      refine goto fun _ => ?_
      cases raised with
      | @onValues e about =>
          cases e with
          | stackOverflow => cases about
          | _ => rfl
      | _ => rfl
  | push plain _ _ _ _ _ ih => exact ih.under plain
  | bind _ _ _ ih | close _ _ ih | addList _ _ ih | addMap _ _ ih | write _ _ _ ih
  | print _ _ _ ih => exact ih.congr

theorem begin (s : State) (stmt : Stmt) : Continues s (s.begin stmt) :=
  of_does (j := ⟨[.stmt stmt], stmt.bound false, none⟩)
    (.begin (.of_mem List.mem_cons_self) (List.Subset.refl _))

theorem enterBlock (s : State) (body : List Stmt) : Continues s (s.enterBlock body) :=
  of_does (j := ⟨[.block body], [], none⟩) (.enterBlock (.of_mem List.mem_cons_self))

end Continues

/-! ## Calls -/

/-- What a step can do to the calls in progress. -/
inductive Transition (r : Run) (s t : State) : Prop where
  /-- The run is over. -/
  | ended : s.isOver = true → t = s → Transition r s t
  /-- Something is begun in the current activation. -/
  | evaluate : s.control.isResult = false → s.callsClosure = false → Continues s t →
      Transition r s t
  /-- A result is used by the work of the current activation that waits for it. -/
  | use (p : Pending) (rest : List Pending) : s.control.isResult = true → s.pending = p :: rest →
      p.isCaller = false → Continues { s with pending := rest } t → Transition r s t
  /-- A closure is called, and its body is entered in a new frame. -/
  | call (c : Closure) : s.callee? = some c → s.depth < r.maxDepth →
      (∃ work, t.pending = work ++ .caller s.env :: s.pending ∧ ∀ p ∈ work, p.isCaller = false) →
      t.env = s.frames.size :: c.env → t.depth = s.depth + 1 → t.control.isOverflow = false →
      Transition r s t
  /-- There is no room for a call. -/
  | overflow (c : Closure) : s.callee? = some c → r.maxDepth ≤ s.depth →
      t = s.fail .stackOverflow → Transition r s t
  /-- A result ends a call, and the frame of the caller is current again. -/
  | leave (env : Env) (rest : List Pending) : s.control.isResult = true →
      s.pending = .caller env :: rest → t.pending = rest → t.env = env → t.depth = s.depth - 1 →
      t.control.isResult = true → (s.control.isOverflow = false → t.control.isOverflow = false) →
      Transition r s t

/-- Where a result meets the end of a call, it is never a value: the call waits for its
body to end. -/
theorem Sound.control_of_caller {layout : Layout} {program : List Stmt}
    {a : Activation} {s : State} (h : Sound layout program a s) {env : Env}
    {rest : List Pending} (hp : s.pending = .caller env :: rest) (v : Value) :
    s.control ≠ .value v := by
  obtain ⟨w, ground, hw, -⟩ := h
  intro hc
  have stack := ground.stack
  rw [hp] at stack
  obtain ⟨rfl, -⟩ := stack.of_caller
  rw [hc] at hw
  simp [Control.yields] at hw

/-- A step of a run does one of these things to the calls in progress. -/
theorem Sound.transition {layout : Layout} {program : List Stmt} {a : Activation}
    {s : State} (h : Sound layout program a s) (r : Run) : Transition r s (s.next r) := by
  obtain ⟨w, ground, hw, -⟩ := h
  have awaits : ∀ {p : Pending} {rest : List Pending}, s.pending = p :: rest →
      s.control.yields p.awaits = true := by
    intro p rest hs
    have stack := ground.stack
    rw [hs] at stack
    rw [stack.awaits]
    exact hw
  have step := advances_next r s
  generalize s.next r = t at step ⊢
  cases step with
  | ended isOver => exact .ended isOver rfl
  | endless busy idle => exact .evaluate busy (by rw [callsClosure, idle]; rfl) (.refl s)
  | begin busy idle _ does => exact .evaluate busy (by rw [callsClosure, idle]; rfl) (.of_does does)
  | use result hs plain does => exact .use _ _ result hs plain (.of_does does)
  | pass result hs passes =>
      rcases passes with ⟨-, plain⟩ | misfit
      · exact .use _ _ result hs plain (.refl _)
      · rw [awaits hs] at misfit
        cases misfit
  | @call c args callee room =>
      have runs := enterBody_runs r.options
        { s with pending := .caller s.env :: s.pending, depth := s.depth + 1 }
        (.ofCall c.function args) c.env c.function.body
      refine .call _ callee room ?_ env_enterBody depth_enterBody ?_
      · rcases runs with ⟨-, pending⟩ | ⟨rest, last, -, -, -, pending⟩
        · exact ⟨[], pending, by simp⟩
        · exact ⟨[.trailing last], pending, by simp [Pending.isCaller]⟩
      · rcases runs with ⟨running, -⟩ | ⟨rest, last, -, -, running, -⟩ <;> rw [running] <;> rfl
  | overflow callee full => exact .overflow _ callee full rfl
  | leave result hs ends =>
      refine .leave _ _ result hs rfl rfl rfl ?_ ?_
      · rcases ends with ⟨v, rfl⟩ | ⟨-, rfl⟩
        · rfl
        · exact result
      · rcases ends with ⟨v, rfl⟩ | ⟨-, rfl⟩
        · exact fun _ => rfl
        · exact id

end State

end ScriptLang
