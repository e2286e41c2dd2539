import Mathlib
import ScriptLang.Proofs.Machine.CallDepth

/-!
# From an assignment to the frame that it changes

An assignment evaluates its right side before it stores anything, and until this has a
value, any number of calls may be made and frames changed. Then the frame in which the
assignment began is the current one again, and it stands for the same body as before. So
the value goes to the frame of the innermost body around the assignment that binds its
name, and nowhere else. The same holds of the header of a loop in every round, of what a
handler catches, and of the functions of a nested block, however it is come to.

Together with what holds of single states, this is lexical scoping: from where the program
says that a variable is read or assigned to the frame in which this happens.
-/

namespace ScriptLang

/-- Variables get values one after the other, up to the first that is bound nowhere. Each is
changed in the frame of the innermost body of a nest that binds it: the one that stands in
the chain where this body stands in the nest. -/
def storeEach (nest : List Function) (env : Env) : List (String × Value) → Frames → Frames
  | [], fs => fs
  | (x, v) :: rest, fs =>
    ((binder? nest x).bind (env[·]?)).elim fs fun id => storeEach nest env rest (fs.bind id x v)

namespace State

/-- From one state to the next one, these variables get these values in the frames of the
bodies that bind them. A variable that no body and no builtin binds is reported, and
otherwise this is done next. -/
structure Stores (nest : List Function) (env : Env) (writes : List (String × Value))
    (next : Control) (below : List Pending) (s t : State) : Prop where
  frames : t.frames = storeEach nest env writes s.frames
  control : t.control = ((writes.map Prod.fst).find? fun x => (binder? nest x).isNone).elim next
    fun x => .raise (.error (.undefined x))
  pending : t.pending = below
  /-- All this happens in the frame at the head of the chain. -/
  current : s.env = env ∧ t.env = env

/-- A block is entered: after some other variables, the functions at its top get their
values. These are closures over the current chain. -/
structure Enters (nest : List Function) (env : Env) (writes : List (String × Value))
    (body : List Stmt) (below : List Pending) (s t : State) : Prop where
  stores : Stores nest env
    (writes ++ functionWrites s.heap.closures.size (functionsOf body)) (.exec body) below s t
  closures : t.control = .exec body → t.heap.closures =
    s.heap.closures ++ ((functionsOf body).map fun f => (⟨f, env⟩ : Closure)).toArray

/-- The evaluation that the step number `n` begins above some work comes to a result before
the step number `m`, and not earlier. -/
structure ComesTo (r : Run) (program : List Stmt) (n : Nat) (base : List Pending) (m : Nat)
    (result : Control) : Prop where
  ends : EndsAt r program n base m
  control : (after r program m).control = result

section

variable (nest : List Function) (env : Env)

/-- A loop goes on to its next round: the values of the round go to the names of the header,
and the body is entered. -/
inductive Rounds (names : List String) (body : List Stmt) (below : List Pending) (s t : State) :
    List (List Value) → Prop where
  | nil : t = { s with pending := below }.finish → Rounds names body below s t []
  | cons {values : List Value} {later : List (List Value)} :
      Enters nest env (names.zip values) body (.rounds names later body :: below) s t →
      Rounds names body below s t (values :: later)

/-- A condition has failed: the block that follows is entered, or the next condition is
evaluated. -/
inductive Fails (below : List Pending) (s t : State) : Alternative → Prop where
  | none : t = { s with pending := below }.finish → Fails below s t .none
  | otherwise {body : List Stmt} : Enters nest env [] body below s t →
      Fails below s t (.otherwise body)
  | elif {test : Expr} {body : List Stmt} {rest : Alternative} :
      t = { s with pending := below }.await (.branch body rest) test →
      Fails below s t (.elif test body rest)

/-- An arm is looked for: the block of one without patterns is entered, and otherwise the
next pattern is evaluated. -/
inductive Selects (subject : Value) (below : List Pending) (s t : State) : List Arm → Prop where
  | nil : t = { s with pending := below }.finish → Selects subject below s t []
  | taken {body : List Stmt} {rest : List Arm} : Enters nest env [] body below s t →
      Selects subject below s t (.mk [] body :: rest)
  | pattern {p : Expr} {patterns : List Expr} {body : List Stmt} {rest : List Arm} :
      t = { s with pending := below }.await (.pattern subject patterns body rest) p →
      Selects subject below s t (.mk (p :: patterns) body :: rest)

end

end State

section

variable (r : Run) (program : List Stmt)

open State

/-- From where the step number `n` begins an assignment, a loop over values or a handler in a
body, to the frames of the bodies around that bind the names. -/
structure AssignsInNest (nest : List Function) (n : Nat) : Prop where
  /-- A statement that is an expression evaluates it. -/
  statement : ∀ e rest, (after r program n).control = .exec (.expr e :: rest) →
    after r program (n + 1) =
      { after r program n with pending := .statements rest :: (after r program n).pending }.await
        .discard e
  /-- An assignment evaluates its right side, and stores the value that this comes to. -/
  plain : ∀ x e, (after r program n).control = .eval (.assign none (.ident x) e) →
    after r program (n + 1) = (after r program n).await (.store x) e ∧
    ∀ m v, ComesTo r program (n + 1) (.store x :: (after r program n).pending) m (.value v) →
      Stores nest (after r program n).env [(x, v)] (.value v) (after r program n).pending
        (after r program m) (after r program (m + 1))
  /-- A compound assignment reads the variable, evaluates its right side, and stores what the
  operator makes of the two values. -/
  compound : ∀ x op e, (after r program n).control = .eval (.assign (some op) (.ident x) e) →
    after r program (n + 1) = (after r program n).await (.updateValue x op e) (.ident x) ∧
    ∀ m old, ComesTo r program (n + 1) (.updateValue x op e :: (after r program n).pending) m
        (.value old) →
      after r program (m + 1) =
        { after r program m with pending := (after r program n).pending }.await
          (.update x op old) e ∧
      ∀ k v, ComesTo r program (m + 1) (.update x op old :: (after r program n).pending) k
          (.value v) →
        Stores nest (after r program n).env [(x, (after r program k).heap.binary op old v)]
          (.value ((after r program k).heap.binary op old v)) (after r program n).pending
          (after r program k) (after r program (k + 1))
  /-- A loop evaluates what it goes over, and starts its first round with the values that it
  finds there. -/
  header : ∀ header iterable body rest,
    (after r program n).control = .exec (.forEach header iterable body :: rest) →
    after r program (n + 1) =
      { after r program n with pending := .statements rest :: (after r program n).pending }.await
        (.iterable header body) iterable ∧
    ∀ m v, ComesTo r program (n + 1)
        (.iterable header body :: .statements rest :: (after r program n).pending) m (.value v) →
      (∀ e, (after r program m).roundsOver header v = .error e →
        (after r program (m + 1)).control = .raise (.error e)) ∧
      ∀ rounds, (after r program m).roundsOver header v = .ok rounds →
        Rounds nest (after r program n).env header.names body
          (.statements rest :: (after r program n).pending)
          (after r program m) (after r program (m + 1)) rounds
  /-- When the body of a round has ended, the next round starts in the same frame. -/
  round : ∀ names rounds body below flow, (after r program n).control = .exec body →
    (after r program n).pending = .rounds names rounds body :: below →
    flow = .normal ∨ flow = .continue →
    ∀ m, ComesTo r program n (.rounds names rounds body :: below) m (.flow flow) →
      Rounds nest (after r program n).env names body below
        (after r program m) (after r program (m + 1)) rounds
  /-- A handler gives to its name what it catches of the body that it is for. -/
  handler : ∀ body name handler rest,
    (after r program n).control = .exec (.attempt body name handler :: rest) →
    Enters nest (after r program n).env [] body
      (.handler name handler :: .statements rest :: (after r program n).pending)
      (after r program n) (after r program (n + 1)) ∧
    ∀ m u v, ComesTo r program n
        (.handler name handler :: .statements rest :: (after r program n).pending) m (.raise u) →
      u.caught? = some v →
      Enters nest (after r program n).env [(name, v)] handler
        (.statements rest :: (after r program n).pending)
        (after r program m) (after r program (m + 1))

/-- From where the step number `n` begins a statement with nested blocks, or one of the
expressions that decide between them, to the frames of the bodies around that bind the
functions of these blocks. -/
structure EntersInNest (nest : List Function) (n : Nat) : Prop where
  /-- A condition is evaluated, -/
  cond : ∀ test body alternative rest,
    (after r program n).control = .exec (.cond test body alternative :: rest) →
    after r program (n + 1) =
      { after r program n with pending := .statements rest :: (after r program n).pending }.await
        (.branch body alternative) test
  /-- and its value decides on the block that is entered. -/
  branch : ∀ test body alternative below m v, (after r program n).control = .eval test →
    (after r program n).pending = .branch body alternative :: below →
    ComesTo r program n (.branch body alternative :: below) m (.value v) →
    (v.truthy = true → Enters nest (after r program n).env [] body below
      (after r program m) (after r program (m + 1))) ∧
    (v.truthy = false → Fails nest (after r program n).env below
      (after r program m) (after r program (m + 1)) alternative)
  /-- A loop evaluates its condition first -/
  whileLoop : ∀ test body rest,
    (after r program n).control = .exec (.whileLoop test body :: rest) →
    after r program (n + 1) =
      { after r program n with pending := .statements rest :: (after r program n).pending }.await
        (.loopTest test body) test
  /-- or enters its body first, -/
  doWhile : ∀ test body rest, (after r program n).control = .exec (.doWhile test body :: rest) →
    Enters nest (after r program n).env [] body
      (.loopBody test body :: .statements rest :: (after r program n).pending)
      (after r program n) (after r program (n + 1))
  /-- evaluates the condition again when the body has ended, -/
  loopBody : ∀ test body below flow m, (after r program n).control = .exec body →
    (after r program n).pending = .loopBody test body :: below →
    flow = .normal ∨ flow = .continue →
    ComesTo r program n (.loopBody test body :: below) m (.flow flow) →
    after r program (m + 1) =
      { after r program m with pending := below }.await (.loopTest test body) test
  /-- and enters the body as long as it holds. -/
  loopTest : ∀ test body below m v, (after r program n).control = .eval test →
    (after r program n).pending = .loopTest test body :: below →
    ComesTo r program n (.loopTest test body :: below) m (.value v) → v.truthy = true →
    Enters nest (after r program n).env [] body (.loopBody test body :: below)
      (after r program m) (after r program (m + 1))
  /-- A selection evaluates its subject, -/
  select : ∀ subject arms rest,
    (after r program n).control = .exec (.select subject arms :: rest) →
    after r program (n + 1) =
      { after r program n with pending := .statements rest :: (after r program n).pending }.await
        (.subject arms) subject
  /-- looks for an arm, -/
  subject : ∀ e arms below m v, (after r program n).control = .eval e →
    (after r program n).pending = .subject arms :: below →
    ComesTo r program n (.subject arms :: below) m (.value v) →
    Selects nest (after r program n).env v below (after r program m) (after r program (m + 1)) arms
  /-- and enters the block of the first one with a pattern that equals the subject. -/
  pattern : ∀ e subject patterns body arms below m v,
    (after r program n).control = .eval e →
    (after r program n).pending = .pattern subject patterns body arms :: below →
    ComesTo r program n (.pattern subject patterns body arms :: below) m (.value v) →
    (v.strictEq subject = true → Enters nest (after r program n).env [] body below
      (after r program m) (after r program (m + 1))) ∧
    (v.strictEq subject = false → Selects nest (after r program n).env subject below
      (after r program m) (after r program (m + 1))
      (if patterns.isEmpty then arms else .mk patterns body :: arms))

end

/-! ## One step -/

theorem storeEach_eq {nest : List Function} {env : Env} {fs : Frames}
    (h : ∀ x, fs.home? env x = (binder? nest x).bind (env[·]?)) (writes : List (String × Value)) :
    storeEach nest env writes fs = fs.assignAll env writes := by
  induction writes generalizing fs with
  | nil => rfl
  | cons w rest ih =>
      rw [storeEach, Frames.assignAll, ← h]
      cases home : fs.home? env w.1 with
      | none => rfl
      | some id => exact ih fun x => by rw [Frames.home?_bind home, h]

namespace State

variable {layout : Layout} {program : List Stmt} {nest : List Function} {s t : State}

/-- What is assigned along the current chain is assigned in the frames of the bodies that
bind the names. -/
theorem Sound.stores (h : Sound layout program ⟨nest, s.env⟩ s) {below : List Pending}
    {writes : List (String × Value)} {next : Control}
    (assigns : Assigns { s with pending := below } writes next t) :
    Stores nest s.env writes next below s t := by
  obtain ⟨frames, control, pending, env⟩ := assigns
  refine ⟨?_, ?_, pending, rfl, env⟩
  · obtain ⟨w, ground, -, -⟩ := h
    rw [frames, storeEach_eq (ground.frames.home? ground.active)]
  · simpa only [Frames.unbound?_eq, h.isNone_home?] using control

/-- The functions of a block become closures over the current chain. -/
theorem closures_enter {body : List Stmt} {functions : List Function}
    (h : (s.enter body functions).control = .exec body) :
    (s.enter body functions).heap.closures =
      s.heap.closures ++ (functions.map fun f => (⟨f, s.env⟩ : Closure)).toArray := by
  induction functions generalizing s with
  | nil => simp [enter, goto]
  | cons f rest ih =>
      rw [enter] at h ⊢
      cases home : s.frames.home? s.env f.name with
      | none =>
          rw [assign_of_unbound home] at h
          cases h
      | some id =>
          rw [assign_of_home? home] at h ⊢
          rw [ih h]
          simp [Heap.addClosure]

theorem closures_startRound {body : List Stmt} {bindings : List (String × Value)}
    (h : (s.startRound body bindings).control = .exec body) :
    (s.startRound body bindings).heap.closures =
      s.heap.closures ++ ((functionsOf body).map fun f => (⟨f, s.env⟩ : Closure)).toArray := by
  induction bindings generalizing s with
  | nil => exact closures_enter h
  | cons b rest ih =>
      rw [startRound] at h ⊢
      cases home : s.frames.home? s.env b.1 with
      | none =>
          rw [assign_of_unbound home] at h
          cases h
      | some id =>
          rw [assign_of_home? home] at h ⊢
          exact ih h

/-- A block is entered in the frame that is current. -/
theorem Sound.enters (h : Sound layout program ⟨nest, s.env⟩ s) (below : List Pending)
    (bindings : List (String × Value)) (body : List Stmt) :
    Enters nest s.env bindings body below s ({ s with pending := below }.startRound body bindings)
    where
  stores := h.stores (assigns_startRound { s with pending := below } body bindings)
  closures := closures_startRound (s := { s with pending := below })

theorem Sound.rounds (h : Sound layout program ⟨nest, s.env⟩ s) (below : List Pending)
    (names : List String) (body : List Stmt) (rounds : List (List Value)) :
    Rounds nest s.env names body below s
      ({ s with pending := below }.nextRound names body rounds) rounds := by
  cases rounds with
  | nil => exact .nil rfl
  | cons values later => exact .cons (h.enters _ _ body)

theorem Sound.fails (h : Sound layout program ⟨nest, s.env⟩ s) (below : List Pending)
    (rest : Alternative) :
    Fails nest s.env below s ({ s with pending := below }.alternative rest) rest := by
  cases rest with
  | none => exact .none rfl
  | otherwise body => exact .otherwise (h.enters below [] body)
  | elif test body rest => exact .elif rfl

theorem Sound.selects (h : Sound layout program ⟨nest, s.env⟩ s) (below : List Pending)
    (subject : Value) (arms : List Arm) :
    Selects nest s.env subject below s ({ s with pending := below }.selectArm subject arms)
      arms := by
  match arms with
  | [] => exact .nil rfl
  | .mk [] body :: _ => exact .taken (h.enters below [] body)
  | .mk (p :: patterns) body :: rest => exact .pattern rfl

/-! ## Runs -/

theorem next_of_value {v : Value} {p : Pending} {below : List Pending} (r : Run)
    (hc : s.control = .value v) (hp : s.pending = p :: below) :
    s.next r = resume r { s with pending := below } v p := by
  simp only [next, hc, hp]

theorem next_of_flow {f : Flow} {p : Pending} {below : List Pending} (r : Run)
    (hc : s.control = .flow f) (hp : s.pending = p :: below) :
    s.next r = { s with pending := below }.proceed f p := by
  simp only [next, hc, hp]

end State

/-- What the frames of a run stand for before each step. -/
structure LaidOut (r : Run) (program : List Stmt) (layout : Nat → Layout) : Prop where
  grows : ∀ n, layout n <+: layout (n + 1)
  sound : ∀ n, ∃ a, (State.after r program n).Sound (layout n) program a

open State

namespace LaidOut

variable {r : Run} {program : List Stmt} {layout : Nat → Layout} {nest : List Function} {n m : Nat}

theorem grows_of_le (h : LaidOut r program layout) (le : n ≤ m) : layout n <+: layout m := by
  induction le with
  | refl => exact List.prefix_rfl
  | step _ ih => exact ih.trans (h.grows _)

section

variable (h : LaidOut r program layout)
  (sound : (after r program n).Sound (layout n) program ⟨nest, (after r program n).env⟩)

include h sound

/-- A frame stands for the same body whenever it is current. -/
theorem sound_again (le : n ≤ m) (same : (after r program m).env = (after r program n).env) :
    (after r program m).Sound (layout m) program ⟨nest, (after r program m).env⟩ := by
  obtain ⟨a, later⟩ := h.sound m
  obtain ⟨w, ground, -, -⟩ := id sound
  obtain ⟨w', ground', -, -⟩ := id later
  obtain ⟨id, env, he, hid⟩ := ground'.frames.head_of_mem ground'.active
  have mem := (h.grows_of_le le).subset ground.active
  obtain ⟨id', env', he', hid'⟩ := ground'.frames.head_of_mem mem
  rw [ground'.env, same] at he
  obtain ⟨rfl, rfl⟩ := List.cons.inj (he.symm.trans he')
  obtain rfl := Option.some.inj (hid.symm.trans hid')
  rw [same]
  exact later

/-- When an evaluation is over, the frame in which it began is current again. -/
theorem comesTo {base : List Pending} {result : Control}
    (begins : (after r program n).Begins base) (comes : ComesTo r program n base m result) :
    (after r program m).Sound (layout m) program ⟨nest, (after r program m).env⟩ ∧
      (after r program m).env = (after r program n).env := by
  have same := (comes.ends.restores begins).1
  exact ⟨h.sound_again sound (Nat.le_of_lt comes.ends.later) same, same⟩

/-- What waits for the value of an expression gets it in the frame in which the evaluation
began. -/
theorem value {e : Expr} {p : Pending} {below : List Pending} {v : Value}
    (hc : (after r program n).control = .eval e) (hp : (after r program n).pending = p :: below)
    (comes : ComesTo r program n (p :: below) m (.value v)) :
    (after r program m).Sound (layout m) program ⟨nest, (after r program m).env⟩ ∧
      (after r program m).env = (after r program n).env ∧
      after r program (m + 1) = resume r { after r program m with pending := below } v p := by
  have begins : (after r program n).Begins (p :: below) := by
    rw [← hp]
    exact .expr hc
  obtain ⟨again, same⟩ := h.comesTo sound begins comes
  exact ⟨again, same, next_of_value r comes.control comes.ends.done.2⟩

/-- What waits for the end of a block gets it in the frame in which the block began. -/
theorem flow {body : List Stmt} {p : Pending} {below : List Pending} {f : Flow}
    (hc : (after r program n).control = .exec body) (hp : (after r program n).pending = p :: below)
    (comes : ComesTo r program n (p :: below) m (.flow f)) :
    (after r program m).Sound (layout m) program ⟨nest, (after r program m).env⟩ ∧
      (after r program m).env = (after r program n).env ∧
      after r program (m + 1) = { after r program m with pending := below }.proceed f p := by
  have begins : (after r program n).Begins (p :: below) := by
    rw [← hp]
    exact .block hc
  obtain ⟨again, same⟩ := h.comesTo sound begins comes
  exact ⟨again, same, next_of_flow r comes.control comes.ends.done.2⟩

/-- What waits for an expression whose evaluation a step has begun gets its value in the
frame of that step. -/
theorem awaited {e : Expr} {p : Pending} {below : List Pending} {v : Value}
    (begun : after r program (n + 1) = { after r program n with pending := below }.await p e)
    (comes : ComesTo r program (n + 1) (p :: below) m (.value v)) :
    (after r program m).Sound (layout m) program ⟨nest, (after r program m).env⟩ ∧
      (after r program m).env = (after r program n).env ∧
      after r program (m + 1) = resume r { after r program m with pending := below } v p := by
  have env : (after r program (n + 1)).env = (after r program n).env := by
    rw [begun]
    rfl
  obtain ⟨again, same, uses⟩ := h.value (h.sound_again sound n.le_succ env)
    (by rw [begun]; rfl) (by rw [begun]; rfl) comes
  exact ⟨again, same.trans env, uses⟩

theorem assignsInNest : AssignsInNest r program nest n where
  statement := by
    intro e rest hc
    rw [after, next, hc]
    rfl
  plain := by
    intro x e hc
    have begun : after r program (n + 1) = (after r program n).await (.store x) e := by
      rw [after, next, hc]
      rfl
    refine ⟨begun, fun m v comes => ?_⟩
    obtain ⟨again, same, uses⟩ := h.awaited sound begun comes
    rw [uses, ← same]
    exact again.stores (assigns_assign _ x v (.value v))
  compound := by
    intro x op e hc
    have begun : after r program (n + 1) =
        (after r program n).await (.updateValue x op e) (.ident x) := by
      rw [after, next, hc]
      rfl
    refine ⟨begun, fun m old comes => ?_⟩
    obtain ⟨again, same, uses⟩ := h.awaited sound begun comes
    refine ⟨uses, fun k v comes => ?_⟩
    obtain ⟨again, same', uses'⟩ := h.awaited again uses comes
    rw [uses', ← same, ← same']
    exact again.stores (assigns_assign _ x _ (.value _))
  header := by
    intro header iterable body rest hc
    have begun : after r program (n + 1) =
        { after r program n with pending := .statements rest :: (after r program n).pending }.await
          (.iterable header body) iterable := by
      rw [after, next, hc]
      rfl
    refine ⟨begun, fun m v comes => ?_⟩
    obtain ⟨again, same, uses⟩ := h.awaited sound begun comes
    have found : ∀ below, roundsOver { after r program m with pending := below } header v =
        (after r program m).roundsOver header v := fun _ => by cases header <;> rfl
    refine ⟨fun e fails => ?_, fun rounds goes => ?_⟩
    · rw [uses]
      simp only [resume, found, fails]
      rfl
    · rw [uses, ← same]
      simp only [resume, found, goes]
      exact again.rounds _ header.names body rounds
  round := by
    intro names rounds body below flow hc hp goesOn m comes
    obtain ⟨again, same, uses⟩ := h.flow sound hc hp comes
    rw [uses, ← same]
    rcases goesOn with rfl | rfl <;> exact again.rounds below names body rounds
  handler := by
    intro body name handler rest hc
    have begun := sound.enters
      (.handler name handler :: .statements rest :: (after r program n).pending) [] body
    rw [after, next, hc]
    refine ⟨begun, fun m u v comes caught => ?_⟩
    obtain ⟨again, same⟩ := h.comesTo sound (.attempt hc) comes
    have uses : after r program (m + 1) = { after r program m with
        pending := .statements rest :: (after r program n).pending }.startRound
          handler [(name, v)] := by
      simp only [after, next, comes.control, comes.ends.done.2, unwind, caught]
      rfl
    rw [uses, ← same]
    exact again.enters _ [(name, v)] handler

theorem entersInNest : EntersInNest r program nest n where
  cond := by
    intro test body alternative rest hc
    rw [after, next, hc]
    rfl
  branch := by
    intro test body alternative below m v hc hp comes
    obtain ⟨again, same, uses⟩ := h.value sound hc hp comes
    rw [uses, ← same]
    refine ⟨fun holds => ?_, fun fails => ?_⟩
    · simp only [resume, holds]
      exact again.enters below [] body
    · simp only [resume, fails]
      exact again.fails below alternative
  whileLoop := by
    intro test body rest hc
    rw [after, next, hc]
    rfl
  doWhile := by
    intro test body rest hc
    have begun := sound.enters
      (.loopBody test body :: .statements rest :: (after r program n).pending) [] body
    rw [after, next, hc]
    exact begun
  loopBody := by
    intro test body below flow m hc hp goesOn comes
    obtain ⟨-, -, uses⟩ := h.flow sound hc hp comes
    rw [uses]
    rcases goesOn with rfl | rfl <;> rfl
  loopTest := by
    intro test body below m v hc hp comes holds
    obtain ⟨again, same, uses⟩ := h.value sound hc hp comes
    rw [uses, ← same]
    simp only [resume, holds]
    exact again.enters _ [] body
  select := by
    intro subject arms rest hc
    rw [after, next, hc]
    rfl
  subject := by
    intro e arms below m v hc hp comes
    obtain ⟨again, same, uses⟩ := h.value sound hc hp comes
    rw [uses, ← same]
    exact again.selects below v arms
  pattern := by
    intro e subject patterns body arms below m v hc hp comes
    obtain ⟨again, same, uses⟩ := h.value sound hc hp comes
    rw [uses, ← same]
    refine ⟨fun equal => ?_, fun differs => ?_⟩
    · simp only [resume, equal]
      exact again.enters below [] body
    · simp only [resume, differs]
      cases patterns with
      | nil => exact again.selects below subject arms
      | cons p patterns => exact .pattern rfl

end

end LaidOut

/-- Before the step number `n`, a run stands in an activation of the body `f` with the bodies
`outer` around it, and what the step begins goes to where the program says. -/
structure ScopedIn (r : Run) (program : List Stmt) (layout : Nat → Layout) (f : Function)
    (outer : List Function) (n : Nat) : Prop where
  state : LexicallyScoped r program (layout n) f outer (after r program n)
  /-- Whenever the same frame is current again, the run stands in the same body. -/
  again : ∀ m, n ≤ m → (after r program m).env = (after r program n).env →
    LexicallyScoped r program (layout m) f outer (after r program m)
  assigns : AssignsInNest r program (f :: outer) n
  enters : EntersInNest r program (f :: outer) n
  /-- A plain assignment to a name that the body does not take from outside always succeeds,
  once its right side has a value, and it changes the frame of the current activation alone. -/
  succeeds : ∀ x e, (after r program n).control = .eval (.assign none (.ident x) e) →
    x ∉ outerInBlock f.body →
    ∀ m v, ComesTo r program (n + 1) (.store x :: (after r program n).pending) m (.value v) →
    ∃ id env, (after r program n).env = id :: env ∧
      (layout n)[id]? = some ⟨f :: outer, (after r program n).env⟩ ∧
      after r program (m + 1) = { after r program m with
        control := .value v
        pending := (after r program n).pending
        frames := (after r program m).frames.bind id x v }

/-- What the invariant gives for a step and for what it begins. -/
theorem LaidOut.scopedIn {r : Run} {program : List Stmt} {layout : Nat → Layout} {f : Function}
    {outer : List Function} {n : Nat} (h : LaidOut r program layout)
    (sound : (after r program n).Sound (layout n) program ⟨f :: outer, (after r program n).env⟩) :
    ScopedIn r program layout f outer n where
  state := sound.lexicallyScoped
  again := fun m le same => (h.sound_again sound le same).lexicallyScoped
  assigns := h.assignsInNest sound
  enters := h.entersInNest sound
  succeeds := by
    intro x e hc ho m v comes
    obtain ⟨begun, -⟩ := (h.assignsInNest sound).plain x e hc
    obtain ⟨again, same, -⟩ := h.awaited sound begun comes
    obtain ⟨id, env, he, -, stores⟩ :=
      again.next_of_store (r := r) comes.control comes.ends.done.2 ho
    obtain ⟨w, ground, -, -⟩ := sound
    obtain ⟨id', env', he', hid⟩ := ground.frames.head_of_mem ground.active
    obtain ⟨rfl, rfl⟩ := List.cons.inj ((he.symm.trans same).trans he')
    exact ⟨id, env, he', hid, stores⟩

/-- Steps that each allow a next one make an infinite sequence. -/
theorem exists_sequence {α : Type} {P : Nat → α → Prop} {R : α → α → Prop} (start : ∃ x, P 0 x)
    (step : ∀ n x, P n x → ∃ y, R x y ∧ P (n + 1) y) :
    ∃ xs : Nat → α, ∀ n, R (xs n) (xs (n + 1)) ∧ P n (xs n) := by
  obtain ⟨first, hfirst⟩ := start
  choose following hR hP using step
  let sequence : (n : Nat) → { x // P n x } := fun n =>
    n.rec ⟨first, hfirst⟩ fun n x => ⟨following n x.1 x.2, hP n x.1 x.2⟩
  exact ⟨fun n => (sequence n).1, fun n => ⟨hR n _ (sequence n).2, (sequence n).2⟩⟩

/-- Along every run, the frames are activations of the bodies of the program, what a
frame stands for never changes, and variables are where the program says, from where it
reads or assigns them on. -/
theorem lexical_scoping (r : Run) (program : List Stmt) :
    ∃ layout : Nat → Layout, ∀ n, layout n <+: layout (n + 1) ∧
      ∃ f outer, ScopedIn r program layout f outer n := by
  have runs := exists_sequence
    (P := fun n layout => ∃ a, (after r program n).Sound layout program a)
    (R := fun layout layout' => layout <+: layout')
    ⟨_, _, sound_initial r.options program⟩
    (by
      rintro n layout ⟨a, ha⟩
      obtain ⟨layout', b, hl, hb⟩ := ha.next r
      exact ⟨layout', hl, b, hb⟩)
  obtain ⟨layout, h⟩ := runs
  have laidOut : LaidOut r program layout := ⟨fun n => (h n).1, fun n => (h n).2⟩
  refine ⟨layout, fun n => ⟨(h n).1, ?_⟩⟩
  obtain ⟨⟨nest, env⟩, sound⟩ := (h n).2
  obtain ⟨w, ground, -, -⟩ := id sound
  obtain ⟨f, outer, rfl⟩ := List.exists_cons_of_ne_nil ground.body
  obtain rfl : env = (after r program n).env := ground.env
  exact ⟨f, outer, laidOut.scopedIn sound⟩

theorem ScopedIn.bind_of_stores {r : Run} {program : List Stmt} {layout : Nat → Layout}
    {f : Function} {outer : List Function} {n : Nat} (h : ScopedIn r program layout f outer n)
    {x : String} {v : Value} {id : Nat} {next : Control} {below : List Pending} {s t : State}
    (home : (after r program n).frames.home? (after r program n).env x = some id)
    (stores : Stores (f :: outer) (after r program n).env [(x, v)] next below s t) :
    t.frames = s.frames.bind id x v := by
  obtain ⟨w, ground, -, -⟩ := h.state.sound
  rw [ground.frames.home? ground.active] at home
  rw [stores.frames, storeEach, home]
  rfl

/-- A counter of text: a function that is made in a block of another one's body adds to a
variable of that body, also when it is called from a loop and from a handler. -/
def textCounter : List Stmt :=
  [.func "counter" ["start"]
      [.expr (.assign none (.ident "total") (.ident "start")),
        .cond (.ident "true")
          [.func "add" ["text"]
            [.outer ["total"], .expr (.assign (some .add) (.ident "total") (.ident "text")),
              .ret (.ident "total")]] .none,
        .ret (.ident "add")],
    .expr (.assign none (.ident "add") (.call (.ident "counter") [.str "'a'"])),
    .forEach (.single "text") (.list [.str "'b'", .str "'c'"])
      [.expr (.call (.ident "add") [.ident "text"])],
    .attempt [.throw (.str "'d'")] "caught"
      [.expr (.call (.ident "print") [.call (.ident "add") [.ident "caught"]])]]

/-- The run of this program. -/
def textCounterRun : Run := { file := "a", options := {}, maxDepth := 5 }

/-- Its state before a step. -/
abbrev textCounterAt (n : Nat) : State := after textCounterRun textCounter n

/-- From an assignment whose right side calls a function, from a block with a function, from
the header of a loop, from a compound assignment in a call of the function and from a
handler, to the frames that they change: 1 is the program's own, 2 that of the counter. -/
theorem lexical_scoping_textCounter :
    ((textCounterAt 3).control =
        .eval (.assign none (.ident "add") (.call (.ident "counter") [.str "'a'"])) ∧
      (textCounterAt 29).frames = (textCounterAt 28).frames.bind 1 "add" (.closure 1)) ∧
    ((textCounterAt 17).control = .eval (.ident "true") ∧ (textCounterAt 17).env = [2, 1, 0] ∧
      (textCounterAt 19).frames = (textCounterAt 18).frames.bind 2 "add" (.closure 1)) ∧
    ((textCounterAt 32).control = .eval (.list [.str "'b'", .str "'c'"]) ∧
      (textCounterAt 38).frames = (textCounterAt 37).frames.bind 1 "text" (.str "b") ∧
      (textCounterAt 64).frames = (textCounterAt 63).frames.bind 1 "text" (.str "c")) ∧
    ((textCounterAt 48).control = .eval (.assign (some .add) (.ident "total") (.ident "text")) ∧
      (textCounterAt 48).env = [3, 2, 1, 0] ∧
      (textCounterAt 53).frames = (textCounterAt 52).frames.bind 2 "total" (.str "ab")) ∧
    (textCounterAt 92).control = .exec [.throw (.str "'d'")] ∧
      (textCounterAt 97).frames = (textCounterAt 96).frames.bind 1 "caught" (.str "d") := by
  obtain ⟨layout, run⟩ := lexical_scoping textCounterRun textCounter
  refine ⟨⟨by cbv, ?_⟩, ⟨by cbv, by cbv, ?_⟩, ⟨by cbv, ?_, ?_⟩, ⟨by cbv, by cbv, ?_⟩, by cbv, ?_⟩
  · obtain ⟨-, f, outer, here⟩ := run 3
    obtain ⟨-, stores⟩ := here.assigns.plain "add" _ (by cbv)
    refine here.bind_of_stores (by decide +kernel) (stores 28 (.closure 1) ⟨?_, by cbv⟩)
    exact .of_length (by decide) ⟨by cbv, by cbv⟩ (by decide +kernel)
  · obtain ⟨-, f, outer, here⟩ := run 17
    obtain ⟨enters, -⟩ := here.enters.branch _ _ _ _ 18 (.bool true) (by cbv) (by cbv)
      ⟨.of_length (by decide) ⟨by cbv, by cbv⟩ (by decide +kernel), by cbv⟩
    exact here.bind_of_stores (by decide +kernel) (enters rfl).stores
  · obtain ⟨-, f, outer, here⟩ := run 31
    obtain ⟨-, rounds⟩ := here.assigns.header (.single "text") _ _ _ (by cbv)
    have found : (textCounterAt 37).roundsOver (.single "text") (.list 0) =
        .ok [[.str "b"], [.str "c"]] := by cbv
    obtain ⟨-, starts⟩ := rounds 37 (.list 0)
      ⟨.of_length (by decide) ⟨by cbv, by cbv⟩ (by decide +kernel), by cbv⟩
    cases starts _ found with
    | cons enters => exact here.bind_of_stores (by decide +kernel) enters.stores
  · obtain ⟨-, f, outer, here⟩ := run 38
    have starts := here.assigns.round ["text"] [[.str "c"]] _ _ .normal (by cbv) (by cbv)
      (.inl rfl) 63 ⟨.of_length (by decide) ⟨by cbv, by cbv⟩ (by decide +kernel), by cbv⟩
    cases starts with
    | cons enters => exact here.bind_of_stores (by decide +kernel) enters.stores
  · obtain ⟨-, f, outer, here⟩ := run 48
    obtain ⟨-, reads⟩ := here.assigns.compound "total" .add (.ident "text") (by cbv)
    obtain ⟨-, stores⟩ := reads 50 (.str "a")
      ⟨.of_length (by decide) ⟨by cbv, by cbv⟩ (by decide +kernel), by cbv⟩
    exact here.bind_of_stores (by decide +kernel) (stores 52 (.str "b")
      ⟨.of_length (by decide) ⟨by cbv, by cbv⟩ (by decide +kernel), by cbv⟩)
  · obtain ⟨-, f, outer, here⟩ := run 91
    obtain ⟨-, enters⟩ := here.assigns.handler _ "caught" _ _ (by cbv)
    have takes := enters 96 (.thrown (.str "d")) (.str "d")
      ⟨.of_length (by decide) ⟨by cbv, by cbv⟩ (by decide +kernel), by cbv⟩ rfl
    exact here.bind_of_stores (by decide +kernel) takes.stores

end ScriptLang
