import ScriptLang.Proofs.Machine.Activation
import ScriptLang.Value.Container

/-!
# What a step can do

A step inside an activation is a few small changes one after the other: work is put off,
a variable gets a value, a function becomes a closure, a container is made or changed,
a text is written. Then something else is done next. `Job.Does` lists these changes with
what each of them needs: the pieces of code that the step has at hand, the names that it
may bind, and what has been found of a map literal.

`Advances` says what a whole step comes to: such changes, an unwinding that passes pending
work by, the beginning of a call, or its end. What a run preserves is proved from these two,
with one case for each change.
-/

namespace ScriptLang

/-! ## Pending work -/

/-- What pending work waits for: the value of an expression or the end of a statement. -/
inductive Wait where
  | value
  | flow
  deriving DecidableEq

namespace Pending

/-- The work ends a call. -/
def isCaller : Pending → Bool
  | .caller _ => true
  | _ => false

/-- What the work waits for. -/
def awaits : Pending → Wait
  | .statements _ | .trailing _ | .loopBody .. | .rounds .. | .handler .. | .caller _ => .flow
  | _ => .value

/-- What the work, once it goes on, comes to: expressions and calls have a value,
statements an end. -/
def yields : Pending → Wait
  | .discard | .branch .. | .loopTest .. | .iterable .. | .subject _ | .pattern .. | .result
  | .assertion _ | .thrown | .statements _ | .trailing _ | .loopBody .. | .rounds ..
  | .handler .. => .flow
  | _ => .value

/-- The pieces of the current body that the work goes on with. -/
def fragments : Pending → List Fragment
  | .binaryRight _ rhs => [.expr rhs]
  | .updateValue _ _ value | .elementValue _ _ value => [.expr value]
  | .elementKey key _ value => [.expr key, .expr value]
  | .callee _ items => [.exprs items]
  | .args _ _ _ rest | .listItem _ rest => [.exprs rest]
  | .indexKey key => [.expr key]
  | .sliceStart start stop => [.expr start, .expr stop]
  | .sliceStop _ stop => [.expr stop]
  | .mapKey _ value rest => [.expr value, .entries rest]
  | .mapValue _ _ rest => [.entries rest]
  | .branch body rest => [.block body, .alternative rest]
  | .loopTest test body | .loopBody test body => [.expr test, .block body]
  | .iterable _ body | .rounds _ _ body | .handler _ body => [.block body]
  | .subject arms => [.arms arms]
  | .pattern _ patterns body rest => [.exprs patterns, .block body, .arms rest]
  | .statements rest => rest.map .stmt
  | .trailing last => [.expr last]
  | _ => []

/-- The names that the work gives a value because its statement or expression
binds them. An update binds nothing. -/
def binds : Pending → List String
  | .store name | .handler name _ => [name]
  | .iterable header _ => header.names
  | .rounds names _ _ => names
  | _ => []

/-- The entries that the work has found for a map literal. -/
def found? : Pending → Option (List (Value × Value))
  | .mapKey found .. | .mapValue found .. => some found
  | _ => none

/-- The end of a call aside, work that comes to a value waits for one. -/
theorem awaits_of_yields {p : Pending} (h : p.yields = .value) (plain : p.isCaller = false) :
    p.awaits = .value := by
  cases p with
  | statements | trailing | loopBody | rounds | handler => cases h
  | caller => cases plain
  | _ => rfl

/-- The end of a call aside, work that waits for the end of a statement comes to one. -/
theorem yields_of_awaits {p : Pending} (h : p.awaits = .flow) (plain : p.isCaller = false) :
    p.yields = .flow := by
  cases p with
  | statements | trailing | loopBody | rounds | handler => rfl
  | caller => cases plain
  | _ => cases h

theorem isCaller_of_awaits {p : Pending} (h : p.awaits = .value) : p.isCaller = false := by
  cases p with
  | caller => cases h
  | _ => rfl

end Pending

namespace Control

/-- What is done next comes to what is waited for. An unwinding comes to nothing. -/
def yields : Control → Wait → Bool
  | .eval _, w | .apply .., w | .value _, w => w = .value
  | .exec _, w | .flow _, w => w = .flow
  | .raise _, _ => true

/-- The pieces of the current body that are done next. -/
def fragments : Control → List Fragment
  | .eval e => [.expr e]
  | .exec body => body.map .stmt
  | _ => []

/-- There is a result: a value, the end of a statement, or an unwinding. -/
def isResult : Control → Bool
  | value _ | flow _ | raise _ => true
  | eval _ | exec _ | apply .. => false

/-- Evaluation is abandoned. -/
def isUnwinding : Control → Bool
  | raise _ => true
  | _ => false

theorem eq_raise {c : Control} (h : c.isUnwinding = true) : ∃ u, c = .raise u := by
  cases c with
  | raise u => exact ⟨u, rfl⟩
  | _ => cases h

/-- An unwinding is a result. -/
theorem isUnwinding_eq_false {c : Control} (h : c.isResult = false) :
    c.isUnwinding = false := by
  cases c with
  | raise u => cases h
  | _ => rfl

/-- What is done next, if not an unwinding, comes to one thing. -/
theorem yields_unique {c : Control} (h : c.isUnwinding = false) {w w' : Wait}
    (hw : c.yields w = true) (hw' : c.yields w' = true) : w = w' := by
  cases c with
  | raise u => cases h
  | _ => exact (of_decide_eq_true hw).trans (of_decide_eq_true hw').symm

end Control

/-- What is raised. A number without a value is reported where it is evaluated. -/
inductive Control.Raises (c : Control) : Unwinding → Prop where
  | thrown (v : Value) : Raises c (.thrown v)
  | onValues {e : RuntimeError} : e.isAboutValues = true → Raises c (.error e)
  | undefined (name : String) : Raises c (.error (.undefined name))
  | assertion (place : String) : Raises c (.error (.assertionFailed place))
  | io (reason : String) : Raises c (.io reason)
  | number {text : String} : c = .eval (.number text) → Number.literal? text.toList = none →
      Raises c (.error (.misuse .readNumber text))

/-! ## Changes of a state -/

/-- What a step has at hand: the pieces of code that it goes on with, the names that it may
bind, and the entries that were found for a map literal. -/
structure Job where
  code : List Fragment
  names : List String
  found : Option (List (Value × Value))

/-- The job of what is done next. -/
def Control.job (c : Control) : Job :=
  ⟨c.fragments, c.fragments.flatMap Fragment.bound, none⟩

/-- The job of pending work. -/
def Pending.job (p : Pending) : Job := ⟨p.fragments, p.binds, p.found?⟩

namespace Job

variable {j : Job} {w : Wait} {s t : State}

/-- The piece lies in the code at hand. -/
def Has (j : Job) (f : Fragment) : Prop := ∃ whole ∈ j.code, f.Within whole

theorem Has.of_mem {f : Fragment} (h : f ∈ j.code) : j.Has f := ⟨f, h, .refl f⟩

theorem Has.part {whole part : Fragment} (h : j.Has whole) (hp : part ∈ whole.parts) :
    j.Has part := by
  obtain ⟨root, mem, inside⟩ := h
  exact ⟨root, mem, inside.part hp⟩

theorem Has.trans {inner middle : Fragment} (h : inner.Within middle) (hm : j.Has middle) :
    j.Has inner := by
  obtain ⟨root, mem, inside⟩ := hm
  exact ⟨root, mem, h.trans inside⟩

theorem Has.within {f root : Fragment} (h : j.Has f) (code : ∀ g ∈ j.code, g.Within root) :
    f.Within root := by
  obtain ⟨whole, mem, inside⟩ := h
  exact inside.trans (code whole mem)

/-- The entries of a map literal: those found, with a key set or not, or none. -/
inductive Finds (j : Job) : List (Value × Value) → Prop where
  | start : Finds j []
  | same {entries : List (Value × Value)} : j.found = some entries → Finds j entries
  | set {entries : List (Value × Value)} (key value : Value) : j.found = some entries →
      Finds j (setEntry key value entries)

theorem finds_of_none {p : Pending} (h : p.found? = none) :
    ∀ entries ∈ p.found?, j.Finds entries := by
  simp [h]

/-- The job is done in small changes, and comes to what is waited for: each constructor is
the first change, and the rest follows. -/
inductive Does (j : Job) : Wait → State → State → Prop where
  /-- No change is left, and this is done next. -/
  | goto {w : Wait} {s : State} {c : Control} : c.yields w = true → c.isUnwinding = false →
      (∀ f ∈ c.fragments, j.Has f) → Does j w s (s.goto c)
  | raise {w : Wait} {s : State} {u : Unwinding} : s.control.Raises u →
      Does j w s (s.goto (.raise u))
  /-- Work of the job is put off. -/
  | push {w : Wait} {s t : State} {p : Pending} : p.isCaller = false → p.yields = w →
      (∀ f ∈ p.fragments, j.Has f) → p.binds ⊆ j.names → (∀ entries ∈ p.found?, j.Finds entries) →
      Does j p.awaits { s with pending := p :: s.pending } t → Does j w s t
  | bind {w : Wait} {s t : State} {name : String} {id : Nat} (v : Value) :
      s.frames.home? s.env name = some id →
      Does j w { s with frames := s.frames.bind id name v } t → Does j w s t
  /-- A function of a block is closed over the current chain of frames. -/
  | close {s t : State} {f : Function} : j.Has (.stmt f.definition) →
      Does j .flow { s with heap := s.heap.addClosure f s.env } t → Does j .flow s t
  | addList {w : Wait} {s t : State} (items : Array Value) :
      Does j w { s with heap := s.heap.addList items } t → Does j w s t
  | addMap {w : Wait} {s t : State} {entries : List (Value × Value)} : j.Finds entries →
      Does j w { s with heap := s.heap.addMap entries } t → Does j w s t
  | write {w : Wait} {s t : State} (p : Place) (v : Value) :
      Does j w { s with heap := s.heap.write p v } t → Does j w s t
  | print {w : Wait} {s t : State} (out err : String) :
      Does j w { s with out := out, err := err } t → Does j w s t

namespace Does

/-- What is done next holds no code. -/
theorem result {c : Control} (hw : c.yields w = true) (hc : c.isUnwinding = false)
    (hf : c.fragments = []) : j.Does w s (s.goto c) :=
  .goto hw hc (by simp [hf])

theorem give (v : Value) : j.Does .value s (s.give v) := result rfl rfl rfl

theorem finish : j.Does .flow s s.finish := result rfl rfl rfl

theorem fail {e : RuntimeError} (h : e.isAboutValues = true) : j.Does w s (s.fail e) :=
  .raise (.onValues h)

theorem await {p : Pending} {e : Expr} (hw : p.awaits = .value) (hy : p.yields = w)
    (he : j.Has (.expr e)) (hf : ∀ f ∈ p.fragments, j.Has f) (hb : p.binds ⊆ j.names)
    (hm : ∀ entries ∈ p.found?, j.Finds entries) : j.Does w s (s.await p e) := by
  refine .push (Pending.isCaller_of_awaits hw) hy hf hb hm ?_
  rw [hw]
  refine .goto (c := .eval e) rfl rfl fun f hf => ?_
  rw [List.mem_singleton.mp hf]
  exact he

/-- Going down from a piece to its parts: one is done next, the others later. -/
theorem descend {whole : Fragment} {p : Pending} {e : Expr} (hw : j.Has whole)
    (ha : p.awaits = .value) (hy : p.yields = w)
    (hparts : Fragment.expr e :: p.fragments ⊆ whole.parts) (hb : p.binds ⊆ j.names)
    (hm : ∀ entries ∈ p.found?, j.Finds entries) : j.Does w s (s.await p e) :=
  await ha hy (hw.part (hparts List.mem_cons_self))
    (fun _ hf => hw.part (hparts (List.mem_cons_of_mem _ hf))) hb hm

/-- Work that binds nothing and belongs to no map literal. -/
theorem down {whole : Fragment} {p : Pending} {e : Expr} (hw : j.Has whole)
    (ha : p.awaits = .value) (hy : p.yields = w)
    (hparts : Fragment.expr e :: p.fragments ⊆ whole.parts) (hb : p.binds = [])
    (hm : p.found? = none) : j.Does w s (s.await p e) :=
  descend hw ha hy hparts (by simp [hb]) (by simp [hm])

theorem produce (p : Product) : j.Does .value s (s.produce p) := by
  cases p with
  | value v => exact give v
  | list items => exact .addList items (.result (c := .value s.heap.nextList) rfl rfl rfl)

theorem produceMap {entries : List (Value × Value)} (h : j.Finds entries) :
    j.Does .value s (s.produceMap entries) :=
  .addMap h (.result (c := .value s.heap.nextMap) rfl rfl rfl)

theorem giveResult {result : Except RuntimeError Value} (h : FailsOnValues result) :
    j.Does .value s (s.giveResult result) := by
  cases result with
  | ok v => exact give v
  | error e => exact fail (h e rfl)

/-- A variable is assigned before the rest is done, or it is reported. -/
theorem assign {name : String} {v : Value} {andThen : State → State}
    (h : ∀ id, s.frames.home? s.env name = some id →
      j.Does w { s with frames := s.frames.bind id name v }
        (andThen { s with frames := s.frames.bind id name v })) :
    j.Does w s (s.assign name v andThen) := by
  cases home : s.frames.home? s.env name with
  | none =>
      rw [State.assign_of_unbound home]
      exact .raise (.undefined name)
  | some id =>
      rw [State.assign_of_home? home]
      exact .bind v home (h id home)

theorem store (container key v : Value) : j.Does .value s (s.store container key v) := by
  unfold State.store
  split
  next p _ => exact .write p v (.result (c := .value v) rfl rfl rfl)
  next e he => exact fail (Heap.failsOnValues_place _ container key e he)

/-! ### Blocks -/

theorem enter {body : List Stmt} {functions : List Function}
    (hb : ∀ stmt ∈ body, j.Has (.stmt stmt)) (hf : ∀ f ∈ functions, j.Has (.stmt f.definition)) :
    j.Does .flow s (s.enter body functions) := by
  induction functions generalizing s with
  | nil => exact .goto (c := .exec body) rfl rfl (List.forall_mem_map.mpr hb)
  | cons f rest ih =>
      obtain ⟨first, others⟩ := List.forall_mem_cons.mp hf
      exact .assign fun _ _ => .close first (ih others)

theorem enterBlock {body : List Stmt} (hb : j.Has (.block body)) :
    j.Does .flow s (s.enterBlock body) := by
  have all : ∀ stmt ∈ body, j.Has (.stmt stmt) := fun stmt mem =>
    .trans (Fragment.within_stmts_of_mem mem) (hb.part (by simp [Fragment.parts]))
  exact enter all fun f hf => all _ (mem_functionsOf.mp hf)

theorem startRound {body : List Stmt} (hb : j.Has (.block body))
    (bindings : List (String × Value)) : j.Does .flow s (s.startRound body bindings) := by
  induction bindings generalizing s with
  | nil => exact enterBlock hb
  | cons b rest ih => exact .assign fun _ _ => ih

theorem nextRound {names : List String} {body : List Stmt} (hb : j.Has (.block body))
    (hn : names ⊆ j.names) (rounds : List (List Value)) :
    j.Does .flow s (s.nextRound names body rounds) := by
  cases rounds with
  | nil => exact finish
  | cons values rest =>
      refine .push (p := .rounds names rest body) rfl rfl ?_ hn (finds_of_none rfl)
        (startRound hb _)
      simpa [Pending.fragments] using hb

theorem alternative {rest : Alternative} (hr : j.Has (.alternative rest)) :
    j.Does .flow s (s.alternative rest) := by
  cases rest with
  | none => exact finish
  | otherwise body => exact enterBlock (hr.part (by simp [Fragment.parts]))
  | elif test body rest =>
      exact down hr rfl rfl (by simp [Fragment.parts, Pending.fragments]) rfl rfl

theorem selectArm (subject : Value) {arms : List Arm} (ha : j.Has (.arms arms)) :
    j.Does .flow s (s.selectArm subject arms) := by
  match arms with
  | [] => exact finish
  | .mk [] body :: rest => exact enterBlock (ha.part (by simp [Fragment.parts]))
  | .mk (p :: patterns) body :: rest =>
      have hp : j.Has (.exprs (p :: patterns)) := ha.part (by simp [Fragment.parts])
      refine await (p := .pattern subject patterns body rest) rfl rfl
        (hp.part (by simp [Fragment.parts])) ?_ (by simp [Pending.binds]) (finds_of_none rfl)
      simp only [Pending.fragments, List.forall_mem_cons, List.not_mem_nil, false_implies,
        implies_true, and_true]
      exact ⟨hp.part (by simp [Fragment.parts]), ha.part (by simp [Fragment.parts]),
        ha.part (by simp [Fragment.parts])⟩

/-! ### Code -/

theorem eval {e : Expr} (hs : s.control = .eval e) :
    (Control.eval e).job.Does .value s (s.eval e) := by
  have he : (Control.eval e).job.Has (.expr e) := .of_mem List.mem_cons_self
  unfold State.eval
  split
  next name =>
    split
    next v _ => exact give v
    next =>
      split
      next v _ => exact give v
      next => exact .raise (.undefined name)
  next text =>
    split
    next x _ => exact give _
    next missing => exact .raise (.number hs missing)
  next text => exact give _
  next => exact give _
  next op operand => exact down he rfl rfl (by simp [Fragment.parts, Pending.fragments]) rfl rfl
  next op lhs rhs => exact down he rfl rfl (by simp [Fragment.parts, Pending.fragments]) rfl rfl
  next name value =>
    refine descend he rfl rfl (by simp [Fragment.parts, Pending.fragments]) ?_ (finds_of_none rfl)
    simp [Pending.binds, Control.job, Control.fragments, Fragment.bound, Expr.bound]
  next op name value =>
    exact down he rfl rfl (by simp [Fragment.parts, Pending.fragments]) rfl rfl
  next op target key value =>
    have ht : (Control.eval (.assign op (.index target key) value)).job.Has
        (.expr (.index target key)) := he.part (by simp [Fragment.parts])
    refine await rfl rfl (ht.part (by simp [Fragment.parts])) ?_ (by simp [Pending.binds])
      (finds_of_none rfl)
    simp only [Pending.fragments, List.forall_mem_cons, List.not_mem_nil, false_implies,
      implies_true, and_true]
    exact ⟨ht.part (by simp [Fragment.parts]), he.part (by simp [Fragment.parts])⟩
  next => exact fail rfl
  next callee args =>
    exact down he rfl rfl (by simp [Fragment.parts, Pending.fragments]) rfl rfl
  next target key => exact down he rfl rfl (by simp [Fragment.parts, Pending.fragments]) rfl rfl
  next target start stop =>
    exact down he rfl rfl (by simp [Fragment.parts, Pending.fragments]) rfl rfl
  next => exact produceMap .start
  next key value rest =>
    refine descend (he.part (List.mem_singleton.mpr rfl)) rfl rfl
      (by simp [Fragment.parts, Pending.fragments]) (by simp [Pending.binds]) ?_
    rintro _ ⟨⟩
    exact .start
  next => exact produce _
  next item rest =>
    exact down (he.part (List.mem_singleton.mpr rfl)) rfl rfl
      (by simp [Fragment.parts, Pending.fragments]) rfl rfl

theorem begin {stmt : Stmt} (hs : j.Has (.stmt stmt)) (hb : stmt.bound false ⊆ j.names) :
    j.Does .flow s (s.begin stmt) := by
  cases stmt with
  | doWhile test body =>
      have block : j.Has (.block body) := hs.part (by simp [Fragment.parts])
      refine .push (p := .loopBody test body) rfl rfl ?_ (by simp [Pending.binds])
        (finds_of_none rfl) (enterBlock block)
      simpa [Pending.fragments] using ⟨hs.part (by simp [Fragment.parts]), block⟩
  | attempt body name handler =>
      refine .push (p := .handler name handler) rfl rfl ?_ ?_ (finds_of_none rfl)
        (enterBlock (hs.part (by simp [Fragment.parts])))
      · simpa [Pending.fragments] using hs.part (by simp [Fragment.parts])
      · simpa [Pending.binds] using hb (by simp [Stmt.bound])
  | forEach header iterable body =>
      refine descend hs rfl rfl (by simp [Fragment.parts, Pending.fragments]) ?_ (finds_of_none rfl)
      exact fun x hx => hb (by simp_all [Pending.binds, Stmt.bound])
  | func | outer => exact finish
  | «break» | «continue» => exact result rfl rfl rfl
  | _ => exact down hs rfl rfl (by simp [Fragment.parts, Pending.fragments]) rfl rfl

theorem exec (body : List Stmt) : (Control.exec body).job.Does .flow s (s.exec body) := by
  cases body with
  | nil => exact finish
  | cons stmt rest =>
      obtain ⟨first, later⟩ := List.forall_mem_cons.mp fun f hf =>
        Has.of_mem (j := (Control.exec (stmt :: rest)).job) (f := f) hf
      refine .push (p := .statements rest) rfl rfl later (by simp [Pending.binds])
        (finds_of_none rfl) (begin first fun x hx => ?_)
      exact List.mem_flatMap.mpr ⟨.stmt stmt, List.mem_cons_self, hx⟩

/-- A line is written, or the stream has taken a part of it and the run ends. -/
theorem writeLine (r : Run) (stream : Stream) (line : String) :
    j.Does .value s (State.write r s stream line) := by
  have append : ∀ (text : String) {t : State}, j.Does .value (s.append stream text) t →
      j.Does .value s t := by
    intro text t h
    cases stream <;> exact .print _ _ h
  unfold State.write
  split
  next => exact append line (give .null)
  next refusal _ => exact append refusal.taken (.raise (.io refusal.reason))

/-- A builtin that never answers is called over and over. -/
theorem callBuiltin (r : Run) (b : Builtin) (args : List Value) :
    State.callBuiltin r s b args = s ∨ j.Does .value s (State.callBuiltin r s b args) := by
  unfold State.callBuiltin
  split
  · exact .inr (writeLine r .out _)
  · exact .inr (writeLine r .err _)
  · split
    next p _ => exact .inr (produce p)
    next e he => exact .inr (fail (Builtin.isAboutValues_of_call he))
    next => exact .inl rfl

/-! ### Pending work -/

/-- Work that waits for a value goes on with it. -/
theorem resume (r : Run) (v : Value) {p : Pending} (hp : p.awaits = .value) :
    p.job.Does p.yields s (State.resume r s v p) := by
  have piece : ∀ {f : Fragment}, f ∈ p.fragments → p.job.Has f := fun hf => .of_mem hf
  -- the next expression of the work itself, with what is left of it put off
  have later : ∀ {q : Pending} {e : Expr}, .expr e ∈ p.fragments → q.awaits = .value →
      q.yields = p.yields → q.fragments ⊆ p.fragments → q.binds = [] → q.found? = none →
      p.job.Does p.yields s (s.await q e) := by
    intro q e he hq hy hsub hb hm
    exact await hq hy (piece he) (fun f hf => piece (hsub hf)) (by simp [hb]) (by simp [hm])
  cases p with
  | unary | binary => exact give _
  | binaryRight op rhs =>
      have go : (Pending.binaryRight op rhs).job.Does .value s (s.goto (.eval rhs)) :=
        .goto rfl rfl fun f hf => piece hf
      cases op with
      | and =>
          simp only [State.resume]
          split
          · exact go
          · exact give v
      | or =>
          simp only [State.resume]
          split
          · exact give v
          · exact go
      | _ => exact later List.mem_cons_self rfl rfl (by simp [Pending.fragments]) rfl rfl
  | store name | update name op old =>
      rw [State.resume]
      exact assign fun _ _ => give _
  | updateValue name op value =>
      exact later List.mem_cons_self rfl rfl (by simp [Pending.fragments]) rfl rfl
  | elementKey key op value =>
      exact later List.mem_cons_self rfl rfl (by simp [Pending.fragments]) rfl rfl
  | elementValue container op value =>
      cases op with
      | none => exact later List.mem_cons_self rfl rfl (by simp [Pending.fragments]) rfl rfl
      | some op =>
          simp only [State.resume]
          split
          next => exact later List.mem_cons_self rfl rfl (by simp [Pending.fragments]) rfl rfl
          next e he => exact fail (Heap.failsOnValues_get _ container v e he)
  | storeElement container key => exact store container key v
  | updateElement container key op old => exact store container key _
  | callee name args =>
      cases args with
      | nil => exact result rfl rfl rfl
      | cons arg rest =>
          exact down (piece List.mem_cons_self) rfl rfl
            (by simp [Fragment.parts, Pending.fragments]) rfl rfl
  | args name f found rest =>
      cases rest with
      | nil => exact result rfl rfl rfl
      | cons arg rest =>
          exact down (piece List.mem_cons_self) rfl rfl
            (by simp [Fragment.parts, Pending.fragments]) rfl rfl
  | indexKey key => exact later List.mem_cons_self rfl rfl (by simp [Pending.fragments]) rfl rfl
  | index container => exact giveResult (Heap.failsOnValues_get _ container v)
  | sliceStart start stop =>
      exact later List.mem_cons_self rfl rfl (by simp [Pending.fragments]) rfl rfl
  | sliceStop container stop =>
      exact later List.mem_cons_self rfl rfl (by simp [Pending.fragments]) rfl rfl
  | slice container start =>
      simp only [State.resume]
      split
      next product _ => exact produce product
      next e he => exact fail (Heap.failsOnValues_slice _ container start v e he)
  -- A map literal keeps its entries while a value is found, and then sets its key.
  | mapKey found value rest =>
      refine await rfl rfl (piece List.mem_cons_self)
        (fun f hf => piece (List.mem_cons_of_mem _ hf)) (by simp [Pending.binds]) ?_
      rintro _ ⟨⟩
      exact .same rfl
  | mapValue found key rest =>
      cases rest with
      | nil => exact produceMap (.set key v rfl)
      | cons entry rest =>
          refine descend (piece List.mem_cons_self) rfl rfl
            (by simp [Fragment.parts, Pending.fragments]) (by simp [Pending.binds]) ?_
          rintro _ ⟨⟩
          exact .set key v rfl
  | listItem found rest =>
      cases rest with
      | nil => exact produce (.list _)
      | cons item rest =>
          exact down (piece List.mem_cons_self) rfl rfl
            (by simp [Fragment.parts, Pending.fragments]) rfl rfl
  | discard => exact finish
  | branch body rest =>
      simp only [State.resume]
      split
      · exact enterBlock (piece (by simp [Pending.fragments]))
      · exact alternative (piece (by simp [Pending.fragments]))
  | loopTest test body =>
      simp only [State.resume]
      split
      · exact .push (p := .loopBody test body) rfl rfl (fun f hf => piece hf)
          (by simp [Pending.binds]) (finds_of_none rfl)
          (enterBlock (piece (by simp [Pending.fragments])))
      · exact finish
  | iterable header body =>
      simp only [State.resume]
      split
      next rounds _ => exact nextRound (piece List.mem_cons_self) (List.Subset.refl _) rounds
      next e he => exact fail (State.failsOnValues_roundsOver s header v e he)
  | subject arms => exact selectArm v (piece List.mem_cons_self)
  | pattern subject patterns body rest =>
      simp only [State.resume]
      split
      · exact enterBlock (piece (by simp [Pending.fragments]))
      · cases patterns with
        | nil => exact selectArm subject (piece (by simp [Pending.fragments]))
        | cons p patterns =>
            have hp : (Pending.pattern subject (p :: patterns) body rest).job.Has
                (.exprs (p :: patterns)) := piece List.mem_cons_self
            refine await (p := .pattern subject patterns body rest) rfl rfl
              (hp.part (by simp [Fragment.parts])) ?_ (by simp [Pending.binds]) (finds_of_none rfl)
            exact List.forall_mem_cons.mpr ⟨hp.part (by simp [Fragment.parts]),
              fun f hf => piece (List.mem_cons_of_mem _ hf)⟩
  | result => exact result rfl rfl rfl
  | assertion line =>
      simp only [State.resume]
      split
      · exact finish
      · exact .raise (.assertion _)
  | thrown => exact .raise (.thrown v)
  | statements | trailing | loopBody | rounds | handler | caller => cases hp

/-- Work inside a call that waits for the end of a statement goes on after it. -/
theorem proceed (f : Flow) {p : Pending} (hp : p.awaits = .flow) (plain : p.isCaller = false) :
    p.job.Does p.yields s (s.proceed f p) := by
  have piece : ∀ {f : Fragment}, f ∈ p.fragments → p.job.Has f := fun hf => .of_mem hf
  have pass : ∀ g : Flow, p.job.Does p.yields s (s.goto (.flow g)) := by
    intro g
    rw [Pending.yields_of_awaits hp plain]
    exact result rfl rfl rfl
  cases p with
  | statements rest =>
      cases f with
      | normal => exact .goto (c := .exec rest) rfl rfl fun f hf => piece hf
      | _ => exact pass _
  | trailing last =>
      cases f with
      | normal =>
          exact await (p := .result) rfl rfl (piece List.mem_cons_self)
            (by simp [Pending.fragments]) (by simp [Pending.binds]) (finds_of_none rfl)
      | _ => exact pass _
  | loopBody test body =>
      cases f with
      | normal | «continue» =>
          exact await (p := .loopTest test body) rfl rfl (piece List.mem_cons_self)
            (fun f hf => piece hf) (by simp [Pending.binds]) (finds_of_none rfl)
      | «break» | returned => exact pass _
  | rounds names rest body =>
      cases f with
      | normal | «continue» => exact nextRound (piece List.mem_cons_self) (List.Subset.refl _) rest
      | «break» | returned => exact pass _
  | handler => exact pass _
  | caller => cases plain
  | _ => cases hp

/-- A handler takes in what it can catch, as the value of its name. -/
theorem handle {u : Unwinding} {v : Value} (caught : u.caught? = some v) (name : String)
    (body : List Stmt) :
    (Pending.handler name body).job.Does .flow s (s.unwind u (.handler name body)) := by
  simp only [State.unwind, caught]
  exact assign fun _ _ => enterBlock (.of_mem List.mem_cons_self)

end Does

end Job

/-! ## Steps -/

namespace State

/-- The closure that the next step calls, if it calls one. -/
def callee? (s : State) : Option Closure :=
  match s.control with
  | .apply _ (.closure id) _ => s.heap.closures[id]?
  | _ => none

theorem callee?_eq_some {s : State} {c : Closure} (h : s.callee? = some c) :
    ∃ name id args, s.control = .apply name (.closure id) args ∧ s.heap.closures[id]? = some c := by
  unfold callee? at h
  split at h
  next name id args hs => exact ⟨name, id, args, hs, h⟩
  next => cases h

/-- What one step comes to. -/
inductive Advances (r : Run) (s : State) : State → Prop where
  /-- The run is over. -/
  | ended : s.isOver = true → Advances r s s
  /-- A builtin never answers. -/
  | endless : s.control.isResult = false → s.callee? = none → Advances r s s
  /-- What is done next is begun. -/
  | begin {w : Wait} {t : State} : s.control.isResult = false → s.callee? = none →
      s.control.yields w = true → s.control.job.Does w s t → Advances r s t
  /-- A result is used by the work that waits for it. -/
  | use {p : Pending} {rest : List Pending} {t : State} : s.control.isResult = true →
      s.pending = p :: rest → p.isCaller = false →
      p.job.Does p.yields { s with pending := rest } t → Advances r s t
  /-- An unwinding passes pending work by, or a result meets work that does not wait for
  one of its kind. -/
  | pass {p : Pending} {rest : List Pending} : s.control.isResult = true →
      s.pending = p :: rest →
      (s.control.isUnwinding = true ∧ p.isCaller = false) ∨ s.control.yields p.awaits = false →
      Advances r s { s with pending := rest }
  /-- A closure is called. -/
  | call {c : Closure} (args : List Value) : s.callee? = some c → s.depth < r.maxDepth →
      Advances r s
        (enterBody r.options { s with pending := .caller s.env :: s.pending, depth := s.depth + 1 }
          (.ofCall c.function args) c.env c.function.body)
  /-- There is no room for a call. -/
  | overflow {c : Closure} : s.callee? = some c → r.maxDepth ≤ s.depth →
      Advances r s (s.fail .stackOverflow)
  /-- The end of a body or an unwinding ends a call. -/
  | leave {env : Env} {rest : List Pending} {c : Control} : s.control.isResult = true →
      s.pending = .caller env :: rest →
      (∃ v, c = .value v) ∨ (s.control.isUnwinding = true ∧ c = s.control) →
      Advances r s ({ s with pending := rest }.leave env c)

variable {s : State}

theorem goto_below {c : Control} (h : s.control = c) (rest : List Pending) :
    { s with pending := rest }.goto c = { s with pending := rest } := by
  subst h
  rfl

theorem resume_of_awaits (r : Run) (v : Value) {p : Pending} (h : p.awaits = .flow) :
    resume r s v p = s.give v := by
  cases p with
  | statements | trailing | loopBody | rounds | handler | caller => rfl
  | _ => cases h

theorem proceed_of_awaits (f : Flow) {p : Pending} (h : p.awaits = .value) :
    s.proceed f p = s.goto (.flow f) := by
  cases p with
  | statements | trailing | loopBody | rounds | handler | caller => cases h
  | _ => rfl

theorem advances_apply (r : Run) {name : Option String} {f : Value} {args : List Value}
    (hs : s.control = .apply name f args) : Advances r s (apply r s name f args) := by
  have busy : s.control.isResult = false := by rw [hs]; rfl
  have comes : s.control.yields .value = true := by rw [hs]; rfl
  have fails : ∀ e : RuntimeError, e.isAboutValues = true → s.callee? = none →
      Advances r s (s.fail e) := fun e he idle => .begin busy idle comes (.fail he)
  cases f with
  | closure id =>
      have callee : s.callee? = s.heap.closures[id]? := by rw [callee?, hs]
      simp only [apply]
      split
      next c found =>
        unfold callClosure
        split
        next full => exact .overflow (callee.trans found) full
        next room => exact .call args (callee.trans found) (Nat.lt_of_not_le room)
      next missing => exact fails _ rfl (callee.trans missing)
  | builtin b =>
      have idle : s.callee? = none := by rw [callee?, hs]
      rcases Job.Does.callBuiltin (j := s.control.job) (s := s) r b args with same | does
      · rw [apply, same]
        exact .endless busy idle
      · exact .begin busy idle comes does
  | _ => exact fails _ rfl (by rw [callee?, hs])

theorem advances_proceed (r : Run) {f : Flow} (hs : s.control = .flow f) {p : Pending}
    {rest : List Pending} (hp : s.pending = p :: rest) :
    Advances r s ({ s with pending := rest }.proceed f p) := by
  have result : s.control.isResult = true := by rw [hs]; rfl
  cases ha : p.awaits with
  | value =>
      rw [proceed_of_awaits f ha, goto_below hs]
      exact .pass result hp (.inr (by rw [hs, ha]; rfl))
  | flow =>
      cases plain : p.isCaller with
      | false => exact .use result hp plain (.proceed f ha plain)
      | true =>
          cases p with
          | caller env => cases f <;> exact .leave result hp (.inl ⟨_, rfl⟩)
          | _ => cases plain

theorem advances_unwind (r : Run) {u : Unwinding} (hs : s.control = .raise u) {p : Pending}
    {rest : List Pending} (hp : s.pending = p :: rest) :
    Advances r s ({ s with pending := rest }.unwind u p) := by
  have result : s.control.isResult = true := by rw [hs]; rfl
  have unwinding : s.control.isUnwinding = true := by rw [hs]; rfl
  have passes : p.isCaller = false → Advances r s ({ s with pending := rest }.goto (.raise u)) := by
    intro plain
    rw [goto_below hs]
    exact .pass result hp (.inl ⟨unwinding, plain⟩)
  cases p with
  | handler name body =>
      cases caught : u.caught? with
      | none =>
          simp only [unwind, caught]
          exact passes rfl
      | some v => exact .use result hp rfl (.handle caught name body)
  | caller env => exact .leave result hp (.inr ⟨unwinding, hs.symm⟩)
  | _ => exact passes rfl

/-- A step does one of these things. -/
theorem advances_next (r : Run) (s : State) : Advances r s (s.next r) := by
  unfold State.next
  split
  next e hs =>
    refine .begin (w := .value) (by rw [hs]; rfl) (by rw [callee?, hs]) (by rw [hs]; rfl) ?_
    rw [hs]
    exact .eval hs
  next body hs =>
    refine .begin (w := .flow) (by rw [hs]; rfl) (by rw [callee?, hs]) (by rw [hs]; rfl) ?_
    rw [hs]
    exact .exec body
  next name f args hs => exact advances_apply r hs
  next v hs =>
    split
    next hp => exact .ended (by simp [isOver, hs, hp])
    next p rest hp =>
      have result : s.control.isResult = true := by rw [hs]; rfl
      cases ha : p.awaits with
      | value => exact .use result hp (Pending.isCaller_of_awaits ha) (.resume r v ha)
      | flow =>
          rw [resume_of_awaits r v ha, give, goto_below hs]
          exact .pass result hp (.inr (by rw [hs, ha]; rfl))
  next f hs =>
    split
    next hp => exact .ended (by simp [isOver, hs, hp])
    next p rest hp => exact advances_proceed r hs hp
  next u hs =>
    split
    next hp => exact .ended (by simp [isOver, hs, hp])
    next p rest hp => exact advances_unwind r hs hp

end State

end ScriptLang
