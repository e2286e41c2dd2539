import ScriptLang.Proofs.Machine.Calls
import ScriptLang.Proofs.Machine.Resolution

/-!
# Calls of a run

However an evaluation ends, the frame that is current afterwards is the one that was
current before, and so is the depth. The end of a call goes back to the chain of frames
that the call has left on the stack, so the chains that will be current again are known
at any time: the present one, then those of the callers. Seen from the work that an
evaluation stands above, the last of these chains stays the same until the evaluation
is over.

The calls in progress are those that were made and whose evaluation is not yet over.
The depth is their number, and a call that finds as many of them as the limit allows
overflows. Below the limit, the limit is of no account.
-/

namespace ScriptLang

/-- The chain of frames that the end of a call goes back to. -/
def Pending.caller? : Pending → Option Env
  | caller env => some env
  | _ => none

theorem Pending.caller?_eq_none {p : Pending} (h : p.isCaller = false) : p.caller? = none := by
  cases p with
  | caller env => exact Bool.noConfusion h
  | _ => rfl

theorem Pending.filterMap_caller? {work : List Pending}
    (h : ∀ p ∈ work, p.isCaller = false) : work.filterMap Pending.caller? = [] :=
  List.filterMap_eq_nil_iff.mpr fun p hp => caller?_eq_none (h p hp)

namespace State

/-- The evaluation above some pending work is over: that work has its result. -/
def IsDone (s : State) (base : List Pending) : Prop :=
  s.control.isResult = true ∧ s.pending = base

theorem isOver_iff {s : State} : s.isOver = true ↔ s.IsDone [] := by
  obtain ⟨control, pending, env, depth, frames, heap, out, err⟩ := s
  cases control <;> cases pending <;> simp [isOver, IsDone, Control.isResult]

/-- The next step begins an evaluation above some pending work, or goes on with one. -/
inductive Begins (s : State) : List Pending → Prop where
  | expr {e : Expr} : s.control = .eval e → Begins s s.pending
  | block {body : List Stmt} : s.control = .exec body → Begins s s.pending
  | stmt {stmt : Stmt} {rest : List Stmt} : s.control = .exec (stmt :: rest) →
      Begins s (.statements rest :: s.pending)
  /-- The body of a handler's `attempt`. -/
  | attempt {body handler : List Stmt} {name : String} {rest : List Stmt} :
      s.control = .exec (.attempt body name handler :: rest) →
      Begins s (.handler name handler :: .statements rest :: s.pending)
  | call {name : Option String} {f : Value} {args : List Value} :
      s.control = .apply name f args → Begins s s.pending
  /-- What waited for a result uses it, be it by entering a block. -/
  | use {p : Pending} {rest : List Pending} : s.control.isResult = true →
      s.pending = p :: rest → p.isCaller = false → Begins s rest

/-- The chains of frames that are current one after the other while some work gets done:
the present one, then those of the callers. -/
def envs (s : State) (work : List Pending) : List Env := s.env :: work.filterMap Pending.caller?

/-- What a step does to the depth and to these chains. A new one begins with a new
frame. -/
inductive EnvStep (fresh depth : Nat) : List Env → Nat → List Env → Prop where
  | same (envs : List Env) : EnvStep fresh depth envs depth envs
  | enter (outer : Env) (envs : List Env) :
      EnvStep fresh depth envs (depth + 1) ((fresh :: outer) :: envs)
  | leave (env env' : Env) (envs : List Env) :
      EnvStep fresh depth (env :: env' :: envs) (depth - 1) (env' :: envs)

theorem EnvStep.getLast? {fresh depth depth' : Nat} {envs envs' : List Env}
    (h : EnvStep fresh depth envs depth' envs') (hne : envs ≠ []) :
    envs'.getLast? = envs.getLast? := by
  cases h with
  | same => rfl
  | enter outer =>
      obtain ⟨env, rest, rfl⟩ := List.exists_cons_of_ne_nil hne
      rw [List.getLast?_cons_cons]
  | leave env env' rest => rw [List.getLast?_cons_cons]

theorem Continues.envs {s t : State} (h : Continues s t) {work base : List Pending}
    (hp : s.pending = work ++ base) :
    ∃ work', t.pending = work' ++ base ∧ t.envs work' = s.envs work := by
  obtain ⟨new, hnew, plain⟩ := h.pending
  refine ⟨new ++ work, by rw [hnew, hp, List.append_assoc], ?_⟩
  rw [State.envs, State.envs, h.env, List.filterMap_append, Pending.filterMap_caller? plain]
  rfl

/-- As long as an evaluation is not over, a step leaves the work below alone. -/
theorem Transition.envs {r : Run} {s t : State} (h : Transition r s t)
    {work base : List Pending} (hp : s.pending = work ++ base)
    (going : s.IsDone base → s.isOver = true) :
    ∃ work', t.pending = work' ++ base ∧
      EnvStep s.frames.size s.depth (s.envs work) t.depth (t.envs work') := by
  -- where a result is used, what uses it stands above the base
  have top : ∀ {p : Pending} {rest : List Pending}, s.control.isResult = true →
      s.pending = p :: rest → ∃ above, work = p :: above ∧ rest = above ++ base := by
    intro p rest result hs
    cases work with
    | nil =>
        have ended := going ⟨result, by simpa using hp⟩
        exact absurd (hs.symm.trans (isOver_iff.mp ended).2) (by simp)
    | cons q above =>
        rw [hs] at hp
        obtain ⟨rfl, rfl⟩ := List.cons.inj hp
        exact ⟨above, rfl, rfl⟩
  cases h with
  | ended _ same =>
      subst same
      exact ⟨work, hp, .same _⟩
  | evaluate _ _ continues =>
      obtain ⟨work', hp', he⟩ := continues.envs hp
      refine ⟨work', hp', ?_⟩
      rw [he, continues.depth]
      exact .same _
  | use p rest result hs plain continues =>
      obtain ⟨above, rfl, hrest⟩ := top result hs
      obtain ⟨work', hp', he⟩ := continues.envs hrest
      refine ⟨work', hp', ?_⟩
      rw [he, continues.depth, State.envs, State.envs,
        List.filterMap_cons_none (Pending.caller?_eq_none plain)]
      exact .same _
  | call c _ _ pending env depth =>
      obtain ⟨new, pending, plain⟩ := pending
      refine ⟨new ++ .caller s.env :: work, by rw [pending, hp]; simp, ?_⟩
      rw [State.envs, State.envs, List.filterMap_append, Pending.filterMap_caller? plain, env,
        depth]
      exact .enter c.env (s.envs work)
  | overflow c _ _ same =>
      subst same
      exact ⟨work, hp, .same _⟩
  | leave env rest result hs pending env_eq depth =>
      obtain ⟨above, rfl, hrest⟩ := top result hs
      refine ⟨above, by rw [pending, hrest], ?_⟩
      rw [State.envs, State.envs, env_eq, depth]
      exact .leave _ _ _

/-! ## Runs -/

variable {r : Run} {program : List Stmt} {n : Nat}

theorem transition_after (r : Run) (program : List Stmt) (n : Nat) :
    Transition r (after r program n) (after r program (n + 1)) := by
  obtain ⟨layout, a, sound⟩ := exists_sound r program n
  exact sound.transition r

/-- The evaluation that the step number `n` begins above some work is over before the
step number `m`, and not earlier. -/
structure EndsAt (r : Run) (program : List Stmt) (n : Nat) (base : List Pending) (m : Nat) :
    Prop where
  later : n < m
  done : (after r program m).IsDone base
  first : ∀ k, n < k → k < m → ¬ (after r program k).IsDone base

/-- The work above some work is not done as long as there is more or less of it. -/
theorem EndsAt.of_length {base : List Pending} {m : Nat} (later : n < m)
    (done : (after r program m).IsDone base)
    (going : ∀ k < m, n < k → (after r program k).control.isResult = true →
      (after r program k).pending.length ≠ base.length) : EndsAt r program n base m := by
  refine ⟨later, done, ?_⟩
  rintro k hn hm ⟨result, rfl⟩
  exact going k hm hn result rfl

/-- When the work above `base` is done, the chain of frames `env` is the current one. -/
def ReturnsTo (s : State) (base : List Pending) (env : Env) : Prop :=
  ∃ work, s.pending = work ++ base ∧ (s.envs work).getLast? = some env

theorem returnsTo_pending (s : State) : s.ReturnsTo s.pending s.env :=
  ⟨[], rfl, rfl⟩

theorem ReturnsTo.env_eq {s : State} {env : Env} (h : s.ReturnsTo s.pending env) : s.env = env := by
  obtain ⟨work, hp, he⟩ := h
  obtain rfl : work = [] := by simpa using hp
  simpa [State.envs] using he

theorem Continues.returnsTo {s t : State} (h : Continues s t) : t.ReturnsTo s.pending s.env := by
  obtain ⟨work, hp, he⟩ := h.envs (List.nil_append _).symm
  exact ⟨work, hp, by rw [he]; rfl⟩

/-- While an evaluation is not over, the chain of frames that will be current when it is
stays the same. -/
theorem ReturnsTo.later {base : List Pending} {env : Env}
    (h : (after r program n).ReturnsTo base env) {m : Nat} (le : n ≤ m)
    (going : ∀ k, n ≤ k → k < m → ¬ (after r program k).IsDone base) :
    (after r program m).ReturnsTo base env := by
  induction le with
  | refl => exact h
  | @step m le ih =>
      obtain ⟨above, hm, he⟩ := ih fun k hk hkm => going k hk (Nat.lt_succ_of_lt hkm)
      obtain ⟨work, hm', step⟩ := (transition_after r program m).envs hm fun done =>
        absurd done (going m le (Nat.lt_succ_self m))
      exact ⟨work, hm', (step.getLast? (by simp [envs])).trans he⟩

/-- The chains of frames that belong to calls at some depth, and the program's own as the
last. Those of calls begin with later frames. -/
structure Nested (depth : Nat) (envs : List Env) : Prop where
  length : envs.length = depth + 1
  outermost : ∃ inner, envs = inner ++ [[1, 0]] ∧
    ∀ env ∈ inner, ∃ id outer, env = id :: outer ∧ 1 < id

theorem Nested.step {depth depth' fresh : Nat} {envs envs' : List Env} (h : Nested depth envs)
    (fresh_pos : 1 < fresh) (step : EnvStep fresh depth envs depth' envs') :
    Nested depth' envs' := by
  obtain ⟨length, inner, he, later⟩ := h
  cases step with
  | same => exact ⟨length, inner, he, later⟩
  | enter outer =>
      refine ⟨by rw [List.length_cons, length], _ :: inner, by rw [he]; rfl, ?_⟩
      intro env henv
      rcases List.mem_cons.mp henv with rfl | henv
      · exact ⟨fresh, outer, rfl, fresh_pos⟩
      · exact later env henv
  | leave env env' rest =>
      cases inner with
      | nil => simp at he
      | cons first inner =>
          obtain ⟨-, he⟩ := List.cons.inj he
          refine ⟨?_, inner, he, fun env h => later env (List.mem_cons_of_mem _ h)⟩
          simp only [List.length_cons] at length ⊢
          omega

/-- The program's own chain of frames is the present one at depth zero, and at no other
depth. -/
theorem Nested.depth_eq_zero_iff {depth : Nat} {env : Env} {envs : List Env}
    (h : Nested depth (env :: envs)) : depth = 0 ↔ env = [1, 0] := by
  obtain ⟨length, inner, he, later⟩ := h
  cases inner with
  | nil =>
      obtain ⟨rfl, rfl⟩ := List.cons.inj he
      simpa using length.symm
  | cons first inner =>
      obtain ⟨rfl, rfl⟩ := List.cons.inj he
      obtain ⟨id, outer, rfl, lt⟩ := later env List.mem_cons_self
      constructor
      · rintro rfl
        simp at length
      · intro same
        obtain ⟨rfl, -⟩ := List.cons.inj same
        exact absurd lt (Nat.lt_irrefl 1)

theorem one_lt_size (r : Run) (program : List Stmt) (n : Nat) :
    1 < (after r program n).frames.size := by
  obtain ⟨layout, ⟨nest, env⟩, w, ground, -⟩ := exists_sound r program n
  obtain ⟨f, outer, rfl⟩ := List.exists_cons_of_ne_nil ground.body
  obtain ⟨id, -, -, -, hid, -⟩ := ground.frames.of_mem ground.active
  have pos : id ≠ 0 := by
    rintro rfl
    simp [ground.frames.builtins.1] at hid
  have lt := (List.getElem?_eq_some_iff.mp hid).1
  have size := ground.frames.size
  omega

section initial

variable (r : Run) (program : List Stmt)

theorem env_initial : (after r program 0).env = [1, 0] := env_enterBody

theorem depth_initial : (after r program 0).depth = 0 := depth_enterBody

/-- The program runs as a whole: its depth is zero. -/
theorem pending_initial : (after r program 0).pending = [] := by
  rw [after, initial, enterBody, execBody_of_depth_zero (depth_define _ _ _)]
  exact pending_define _ _ _

end initial

theorem nested_after (r : Run) (program : List Stmt) (n : Nat) :
    Nested (after r program n).depth ((after r program n).envs (after r program n).pending) := by
  induction n with
  | zero =>
      have calls : (after r program 0).pending.filterMap Pending.caller? = [] := by
        rw [pending_initial]
        rfl
      refine ⟨?_, [], ?_, by simp⟩
      · rw [envs, calls, depth_initial]
        rfl
      · rw [envs, calls, env_initial]
        rfl
  | succ n ih =>
      obtain ⟨work, hp, step⟩ := (transition_after r program n).envs
        (List.append_nil _).symm isOver_iff.mpr
      rw [List.append_nil] at hp
      rw [hp]
      exact ih.step (one_lt_size r program n) step

/-! ## Calls in progress -/

/-- The next step makes a call, for which there is room. -/
def MakesCall (r : Run) (s : State) : Prop := s.callsClosure = true ∧ s.depth < r.maxDepth

/-- The call that the step number `k` makes is in progress before the step number `n`: it
was made earlier, and its evaluation is not over. -/
structure InProgress (r : Run) (program : List Stmt) (k n : Nat) : Prop where
  earlier : k < n
  made : (after r program k).MakesCall r
  going : ∀ j, k < j → j ≤ n → ¬ (after r program j).IsDone (after r program k).pending

theorem inProgress_succ_iff {k : Nat} : InProgress r program k (n + 1) ↔
    (InProgress r program k n ∨ k = n ∧ (after r program n).MakesCall r) ∧
      ¬ (after r program (n + 1)).IsDone (after r program k).pending := by
  constructor
  · rintro ⟨earlier, made, going⟩
    refine ⟨?_, going _ earlier (Nat.le_refl _)⟩
    rcases Nat.lt_succ_iff_lt_or_eq.mp earlier with lt | rfl
    · exact .inl ⟨lt, made, fun j hj hjn => going j hj (Nat.le_succ_of_le hjn)⟩
    · exact .inr ⟨rfl, made⟩
  · rintro ⟨⟨earlier, made, going⟩ | ⟨rfl, made⟩, last⟩
    · refine ⟨Nat.lt_succ_of_lt earlier, made, fun j hj hjn => ?_⟩
      rcases Nat.le_succ_iff.mp hjn with le | rfl
      · exact going j hj le
      · exact last
    · refine ⟨Nat.lt_succ_self k, made, fun j hj hjn => ?_⟩
      obtain rfl : j = k + 1 := by omega
      exact last

/-- The pending work ends calls that were made by these steps, the last one first. -/
inductive Traces (r : Run) (program : List Stmt) : List Pending → List Nat → Prop where
  | nil : Traces r program [] []
  | work {p : Pending} {rest : List Pending} {calls : List Nat} : p.isCaller = false →
      Traces r program rest calls → Traces r program (p :: rest) calls
  | call {k : Nat} {calls : List Nat} : Traces r program (after r program k).pending calls →
      Traces r program (.caller (after r program k).env :: (after r program k).pending) (k :: calls)

namespace Traces

variable {pending work rest : List Pending} {calls : List Nat} {p : Pending}

theorem append (h : Traces r program pending calls) (plain : ∀ p ∈ work, p.isCaller = false) :
    Traces r program (work ++ pending) calls := by
  induction work with
  | nil => exact h
  | cons p work ih =>
      exact .work (plain p List.mem_cons_self) (ih fun q hq => plain q (List.mem_cons_of_mem _ hq))

theorem of_work (h : Traces r program (p :: rest) calls) (plain : p.isCaller = false) :
    Traces r program rest calls := by
  cases h with
  | work _ h => exact h
  | call => exact Bool.noConfusion plain

theorem of_caller {env : Env} (h : Traces r program (.caller env :: rest) calls) :
    ∃ k earlier, calls = k :: earlier ∧ rest = (after r program k).pending ∧
      Traces r program rest earlier := by
  cases h with
  | work plain => exact Bool.noConfusion plain
  | call h => exact ⟨_, _, rfl, rfl, h⟩

theorem length_eq (h : Traces r program pending calls) :
    calls.length = (pending.filterMap Pending.caller?).length := by
  induction h with
  | nil => rfl
  | work plain _ ih => rw [List.filterMap_cons_none (Pending.caller?_eq_none plain), ih]
  | call _ ih => rw [List.length_cons, ih]; rfl

/-- What was pending before a call is below the work that ends it. -/
theorem length_lt (h : Traces r program pending calls) {k : Nat} (hk : k ∈ calls) :
    (after r program k).pending.length < pending.length := by
  induction h with
  | nil => simp at hk
  | work _ _ ih => exact Nat.lt_succ_of_lt (ih hk)
  | call _ ih =>
      rcases List.mem_cons.mp hk with rfl | hk
      · exact Nat.lt_succ_self _
      · exact Nat.lt_succ_of_lt (ih hk)

theorem not_isDone {s : State} (h : Traces r program s.pending calls) {k : Nat}
    (hk : k ∈ calls) : ¬ s.IsDone (after r program k).pending := by
  rintro ⟨-, same⟩
  exact absurd (h.length_lt hk) (by rw [same]; exact Nat.lt_irrefl _)

end Traces

/-- These are the calls in progress, and the pending work ends each of them, the last one first. -/
structure Accounts (r : Run) (program : List Stmt) (n : Nat) (calls : List Nat) : Prop where
  traces : Traces r program (after r program n).pending calls
  nodup : calls.Nodup
  mem : ∀ k, k ∈ calls ↔ InProgress r program k n

theorem not_makesCall {s : State} (h : s.callsClosure = false) : ¬ s.MakesCall r := by
  rintro ⟨calls, -⟩
  rw [h] at calls
  cases calls

namespace Accounts

variable {calls calls' : List Nat}

/-- Unless a call is made, the calls in progress are those that the work still ends. -/
theorem keep (h : Accounts r program n calls) (sub : calls'.Sublist calls)
    (idle : ¬ (after r program n).MakesCall r)
    (traces : Traces r program (after r program (n + 1)).pending calls')
    (done : ∀ k ∈ calls, k ∉ calls' →
      (after r program (n + 1)).IsDone (after r program k).pending) :
    Accounts r program (n + 1) calls' := by
  refine ⟨traces, h.nodup.sublist sub, fun k => ?_⟩
  rw [inProgress_succ_iff, ← h.mem]
  constructor
  · intro hk
    exact ⟨.inl (sub.subset hk), traces.not_isDone hk⟩
  · rintro ⟨hk | ⟨-, made⟩, going⟩
    · exact Classical.byContradiction fun hk' => going (done k hk hk')
    · exact absurd made idle

theorem same (h : Accounts r program n calls) (idle : ¬ (after r program n).MakesCall r)
    (traces : Traces r program (after r program (n + 1)).pending calls) :
    Accounts r program (n + 1) calls :=
  h.keep (.refl _) idle traces fun _ hk hk' => absurd hk hk'

/-- A call that is made comes first. -/
theorem call (h : Accounts r program n calls) (made : (after r program n).MakesCall r)
    {work : List Pending} (plain : ∀ p ∈ work, p.isCaller = false)
    (pending : (after r program (n + 1)).pending =
      work ++ .caller (after r program n).env :: (after r program n).pending) :
    Accounts r program (n + 1) (n :: calls) := by
  have traces : Traces r program (after r program (n + 1)).pending (n :: calls) := by
    rw [pending]
    exact .append (.call h.traces) plain
  have new : n ∉ calls := fun hn => absurd ((h.mem n).mp hn).earlier (Nat.lt_irrefl n)
  refine ⟨traces, List.nodup_cons.mpr ⟨new, h.nodup⟩, fun k => ?_⟩
  rw [inProgress_succ_iff, ← h.mem, List.mem_cons]
  constructor
  · intro hk
    refine ⟨?_, traces.not_isDone (List.mem_cons.mpr hk)⟩
    rcases hk with rfl | hk
    · exact .inr ⟨rfl, made⟩
    · exact .inl hk
  · rintro ⟨hk | ⟨rfl, -⟩, -⟩
    · exact .inr hk
    · exact .inl rfl

end Accounts

theorem exists_accounts (r : Run) (program : List Stmt) (n : Nat) :
    ∃ calls, Accounts r program n calls := by
  induction n with
  | zero =>
      refine ⟨[], ?_, .nil, ?_⟩
      · rw [pending_initial]
        exact .nil
      · intro k
        constructor
        · intro h
          simp at h
        · intro h
          exact absurd h.earlier (Nat.not_lt_zero k)
  | succ n ih =>
      obtain ⟨calls, accounts⟩ := ih
      have traces := accounts.traces
      cases transition_after r program n with
      | ended last eq =>
          refine ⟨calls, accounts.same
            (not_makesCall (callsClosure_of_isResult (isOver_iff.mp last).1)) ?_⟩
          rw [eq]
          exact traces
      | evaluate _ none continues =>
          obtain ⟨work, hp, plain⟩ := continues.pending
          exact ⟨calls, accounts.same (not_makesCall none) (hp ▸ traces.append plain)⟩
      | use p rest result hs hcaller continues =>
          obtain ⟨work, hp, plain⟩ := continues.pending
          rw [hs] at traces
          exact ⟨calls, accounts.same (not_makesCall (callsClosure_of_isResult result))
            (hp ▸ (traces.of_work hcaller).append plain)⟩
      | call c hc room pending =>
          obtain ⟨work, pending, plain⟩ := pending
          exact ⟨n :: calls, accounts.call ⟨Option.isSome_of_mem hc, room⟩ plain pending⟩
      | overflow c _ full eq =>
          have idle : ¬ (after r program n).MakesCall r :=
            fun made => absurd made.2 (Nat.not_lt_of_le full)
          refine ⟨calls, accounts.same idle ?_⟩
          rw [eq]
          exact traces
      | leave env rest result hs pending _ _ result' =>
          rw [hs] at traces
          obtain ⟨k, earlier, rfl, hrest, traces⟩ := traces.of_caller
          refine ⟨earlier, accounts.keep (List.sublist_cons_self k earlier)
            (not_makesCall (callsClosure_of_isResult result)) ?_ ?_⟩
          · rw [pending]
            exact traces
          · intro j hj hj'
            obtain rfl := (List.mem_cons.mp hj).resolve_right hj'
            exact ⟨result', pending.trans hrest⟩

/-! ## The limit -/

theorem depth_le (r : Run) (program : List Stmt) (n : Nat) :
    (after r program n).depth ≤ r.maxDepth := by
  induction n with
  | zero =>
      rw [depth_initial]
      exact Nat.zero_le _
  | succ n ih =>
      cases transition_after r program n with
      | ended _ eq => rwa [eq]
      | evaluate _ _ continues | use _ _ _ _ _ continues => rwa [continues.depth]
      | call c _ room _ _ depth => rwa [depth]
      | overflow c _ _ eq => rwa [eq]
      | leave env rest _ _ _ _ depth =>
          rw [depth]
          exact Nat.le_trans (Nat.sub_le _ _) ih

/-- An overflow is raised where a closure is called without room for it, and nowhere
else. -/
theorem overflows_iff (r : Run) (program : List Stmt) (n : Nat) :
    ((after r program n).control.isOverflow = false ∧
        (after r program (n + 1)).control.isOverflow = true) ↔
      (after r program n).callsClosure = true ∧ (after r program n).depth = r.maxDepth := by
  have limit := depth_le r program n
  have quiet : (after r program n).callsClosure = false →
      ((after r program n).control.isOverflow = false →
        (after r program (n + 1)).control.isOverflow = false) →
      (((after r program n).control.isOverflow = false ∧
          (after r program (n + 1)).control.isOverflow = true) ↔
        (after r program n).callsClosure = true ∧
          (after r program n).depth = r.maxDepth) := by
    intro no control
    constructor
    · rintro ⟨fresh, raised⟩
      rw [control fresh] at raised
      cases raised
    · rintro ⟨calls, -⟩
      rw [no] at calls
      cases calls
  cases transition_after r program n with
  | ended last eq =>
      refine quiet (callsClosure_of_isResult (isOver_iff.mp last).1) ?_
      rw [eq]
      exact id
  | evaluate _ no continues => exact quiet no continues.control
  | use p rest result _ _ continues =>
      exact quiet (callsClosure_of_isResult result) continues.control
  | leave env rest result _ _ _ _ _ control =>
      exact quiet (callsClosure_of_isResult result) control
  | call c _ room _ _ _ control =>
      rw [control]
      simp [Nat.ne_of_lt room]
  | overflow c hc full eq =>
      have fresh : (after r program n).control.isOverflow = false := by
        unfold callee? at hc
        split at hc
        next applied => rw [applied]; rfl
        next => cases hc
      have raised : (after r program (n + 1)).control.isOverflow = true := by rw [eq]; rfl
      have calls : (after r program n).callsClosure = true := Option.isSome_of_mem hc
      simp [fresh, raised, calls, Nat.le_antisymm limit full]

/-! ## Evaluations -/

theorem next_of_exec {s : State} {body : List Stmt} (h : s.control = .exec body) (r : Run) :
    s.next r = s.exec body := by
  rw [next, h]

/-- What waits for a result goes on in its activation, unless it ends a call. -/
theorem continues_of_use {p : Pending} {rest : List Pending}
    (result : (after r program n).control.isResult = true)
    (hp : (after r program n).pending = p :: rest) (plain : p.isCaller = false) :
    Continues { after r program n with pending := rest } (after r program (n + 1)) := by
  cases transition_after r program n with
  | ended last =>
      rw [(isOver_iff.mp last).2] at hp
      cases hp
  | evaluate busy =>
      rw [busy] at result
      cases result
  | use q rest' _ hq _ continues =>
      obtain ⟨rfl, rfl⟩ := List.cons.inj (hp.symm.trans hq)
      exact continues
  | call c hc | overflow c hc =>
      have calls : (after r program n).callsClosure = true := Option.isSome_of_mem hc
      rw [callsClosure_of_isResult result] at calls
      cases calls
  | leave env rest' _ hq =>
      obtain ⟨rfl, -⟩ := List.cons.inj (hp.symm.trans hq)
      cases plain

/-- After its first step, an evaluation goes back to the frame in which it began. -/
theorem Begins.returnsTo {base : List Pending} (h : (after r program n).Begins base) :
    (after r program (n + 1)).ReturnsTo base (after r program n).env := by
  have begun : (after r program n).control.isResult = false →
      (after r program (n + 1)).ReturnsTo (after r program n).pending (after r program n).env := by
    intro busy
    refine (returnsTo_pending _).later (Nat.le_succ n) ?_
    rintro k hk hkn ⟨result, -⟩
    obtain rfl : k = n := by omega
    rw [busy] at result
    cases result
  cases h with
  | expr hc | block hc | call hc => exact begun (by rw [hc]; rfl)
  | @stmt stmt rest hc =>
      rw [after, next_of_exec hc]
      exact Continues.returnsTo
        (.begin { after r program n with pending := .statements rest :: _ } stmt)
  | @attempt body handler name rest hc =>
      rw [after, next_of_exec hc]
      exact Continues.returnsTo
        (.enterBlock { after r program n with pending := .handler name handler :: _ } body)
  | use result hs plain => exact (continues_of_use result hs plain).returnsTo

theorem Begins.filterMap_caller? {s : State} {base : List Pending} (h : s.Begins base) :
    base.filterMap Pending.caller? = s.pending.filterMap Pending.caller? := by
  cases h with
  | expr | block | call => rfl
  | stmt | attempt => rfl
  | use _ hs plain => rw [hs, List.filterMap_cons_none (Pending.caller?_eq_none plain)]

theorem depth_eq (r : Run) (program : List Stmt) (n : Nat) : (after r program n).depth =
    ((after r program n).pending.filterMap Pending.caller?).length := by
  have length := (nested_after r program n).length
  rw [envs, List.length_cons] at length
  omega

/-- When an evaluation is over, frame and depth are what they were when it began. -/
theorem EndsAt.restores {base : List Pending} {m : Nat} (h : EndsAt r program n base m)
    (begins : (after r program n).Begins base) :
    (after r program m).env = (after r program n).env ∧
      (after r program m).depth = (after r program n).depth := by
  constructor
  · have back := begins.returnsTo.later h.later h.first
    rw [← h.done.2] at back
    exact back.env_eq
  · rw [depth_eq, depth_eq, h.done.2, begins.filterMap_caller?]

/-- A handler that catches something gives it to its name and binds the functions of its
block; where these variables are bound, its block runs, and otherwise the first that is not
is reported. -/
theorem control_next_of_caught {s : State} {u : Unwinding} {v : Value} {name : String}
    {handler : List Stmt} {rest : List Pending} (hc : s.control = .raise u)
    (hp : s.pending = .handler name handler :: rest) (hu : u.caught? = some v) (r : Run) :
    (s.next r).control =
      (s.frames.unbound? s.env (name :: (functionsOf handler).map Function.name)).elim
        (.exec handler) fun x => .raise (.error (.undefined x)) := by
  simp only [next, hc, hp, unwind, hu]
  have assigns := assigns_caught { s with control := .raise u, pending := rest } name v handler
  rw [assigns.control, List.map_cons, map_fst_functionWrites]

/-- Nothing catches a line that could not be written. -/
theorem control_next_of_io {s : State} {reason : String} {name : String}
    {handler : List Stmt} {rest : List Pending} (hc : s.control = .raise (.io reason))
    (hp : s.pending = .handler name handler :: rest) (r : Run) :
    (s.next r).control = .raise (.io reason) := by
  rw [next, hc, hp]
  rfl

theorem exists_caught {u : Unwinding} (h : ∀ reason, u ≠ .io reason) : ∃ v, u.caught? = some v := by
  cases u with
  | error e => exact ⟨_, rfl⟩
  | thrown v => exact ⟨v, rfl⟩
  | io reason => exact absurd rfl (h reason)

end State

/-- What holds before the step number `n` of a run. -/
structure CallsRestore (r : Run) (program : List Stmt) (n : Nat) : Prop where
  /-- However an evaluation ends, it ends in the frame and at the depth it began in. -/
  restores : ∀ base m, (State.after r program n).Begins base → State.EndsAt r program n base m →
    (State.after r program m).env = (State.after r program n).env ∧
      (State.after r program m).depth = (State.after r program n).depth
  /-- The depth is the number of calls in progress, -/
  counts : ∃ calls : List Nat, calls.Nodup ∧
    (∀ k, k ∈ calls ↔ State.InProgress r program k n) ∧
      calls.length = (State.after r program n).depth
  /-- which the limit bounds. -/
  bounded : (State.after r program n).depth ≤ r.maxDepth
  /-- It is zero exactly while the program's own frame is the current one. -/
  outermost : (State.after r program n).depth = 0 ↔ (State.after r program n).env = [1, 0]
  /-- An overflow is raised exactly where a closure is called at the limit. -/
  overflows : ((State.after r program n).control.isOverflow = false ∧
      (State.after r program (n + 1)).control.isOverflow = true) ↔
    (State.after r program n).callsClosure = true ∧
      (State.after r program n).depth = r.maxDepth
  /-- Whatever a handler catches, be it raised inside of any number of calls, it runs in
  the frame and at the depth of its own `attempt`: in this frame it gives its name the caught
  value and the functions of its block theirs. Only if one of these names is bound nowhere
  along the chain of this frame, the first such name is reported and the block does not run. -/
  handles : ∀ body name handler rest m u,
    (State.after r program n).control = .exec (.attempt body name handler :: rest) →
    State.EndsAt r program n
      (.handler name handler :: .statements rest :: (State.after r program n).pending) m →
    (State.after r program m).control = .raise u → (∀ reason, u ≠ .io reason) →
    (State.after r program (m + 1)).env = (State.after r program n).env ∧
      (State.after r program (m + 1)).depth = (State.after r program n).depth ∧
      (State.after r program (m + 1)).control =
        ((State.after r program m).frames.unbound? (State.after r program n).env
          (name :: (functionsOf handler).map Function.name)).elim (.exec handler)
            fun x => .raise (.error (.undefined x))
  /-- A line that could not be written passes all handlers by. -/
  passes : ∀ name handler rest reason, (State.after r program n).control = .raise (.io reason) →
    (State.after r program n).pending = .handler name handler :: rest →
    (State.after r program (n + 1)).control = .raise (.io reason)

open State in
/-- However an evaluation of a run ends, the interpreter is back where it was before: in
its frame, and with as many calls in progress. -/
theorem calls_restore (r : Run) (program : List Stmt) (n : Nat) : CallsRestore r program n where
  restores := fun base m begins ends => ends.restores begins
  counts := by
    obtain ⟨calls, accounts⟩ := exists_accounts r program n
    exact ⟨calls, accounts.nodup, accounts.mem,
      accounts.traces.length_eq.trans (depth_eq r program n).symm⟩
  bounded := depth_le r program n
  outermost := (nested_after r program n).depth_eq_zero_iff
  overflows := overflows_iff r program n
  handles := by
    intro body name handler rest m u hc ends raised catchable
    obtain ⟨env, depth⟩ := ends.restores (.attempt hc)
    have caught := continues_of_use ends.done.1 ends.done.2 rfl
    obtain ⟨v, hv⟩ := exists_caught catchable
    have runs := control_next_of_caught raised ends.done.2 hv r
    rw [env] at runs
    exact ⟨caught.env.trans env, caught.depth.trans depth, runs⟩
  passes := fun name handler rest reason hc hp => control_next_of_io hc hp r

/-- The program catches an error that comes from two calls deep. -/
def caughtError : List Stmt :=
  [.func "g" [] [.ret (.ident "missing")],
    .func "f" [] [.expr (.call (.ident "g") [])],
    .attempt [.expr (.call (.ident "f") [])] "e" [.expr (.call (.ident "print") [.ident "e"])]]

/-- The run of this program. -/
def caughtErrorRun : Run := { file := "a", options := {}, maxDepth := 5 }

open State in
/-- The handler runs in the program's own frame and outside of all calls. -/
theorem calls_restore_caughtError :
    (after caughtErrorRun caughtError 4).control = .exec [.attempt
        [.expr (.call (.ident "f") [])] "e" [.expr (.call (.ident "print") [.ident "e"])]] ∧
      (after caughtErrorRun caughtError 16).depth = 2 ∧
      EndsAt caughtErrorRun caughtError 4
        [.handler "e" [.expr (.call (.ident "print") [.ident "e"])], .statements []] 25 ∧
      (after caughtErrorRun caughtError 25).control = .raise (.error (.undefined "missing")) ∧
      (after caughtErrorRun caughtError 26).env = [1, 0] ∧
      (after caughtErrorRun caughtError 26).depth = 0 ∧
      (after caughtErrorRun caughtError 26).control =
        .exec [.expr (.call (.ident "print") [.ident "e"])] := by
  have begins : (after caughtErrorRun caughtError 4).control = .exec [.attempt
      [.expr (.call (.ident "f") [])] "e" [.expr (.call (.ident "print") [.ident "e"])]] := by rfl
  have raised : (after caughtErrorRun caughtError 25).control =
      .raise (.error (.undefined "missing")) := by rfl
  have ends : EndsAt caughtErrorRun caughtError 4
      [.handler "e" [.expr (.call (.ident "print") [.ident "e"])], .statements []] 25 :=
    .of_length (by decide) ⟨by rfl, by rfl⟩ (by decide +kernel)
  obtain ⟨env, depth, runs⟩ := (calls_restore caughtErrorRun caughtError 4).handles _ _ _ _ 25 _
    begins ends raised (by simp)
  have bound : (after caughtErrorRun caughtError 25).frames.unbound?
      (after caughtErrorRun caughtError 4).env ["e"] = none := by
    decide +kernel
  refine ⟨begins, by decide +kernel, ends, raised, env, depth, ?_⟩
  rw [runs]
  exact congrArg (Option.elim · _ _) bound

end ScriptLang
