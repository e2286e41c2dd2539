import ScriptLang.Proofs.Machine.Variables

/-!
# What an assignment changes

An assignment to a variable changes one binding: the one in the nearest frame of
the chain that has the name. Chains of different functions share frames, so the
change is seen along every chain on which the name leads to that binding, and
along no other. Where the chain has no such binding, the assignment fails and
changes nothing.

The chains are arbitrary lists of frames. Those that lead from a frame to the one
around it, and so on, are among them.
-/

namespace ScriptLang

namespace Frames

variable {fs fs' : Frames} {env : Env} {x y : String} {v : Value} {id j : Nat}

/-- The frame is the nearest one of a chain that binds the name. -/
def Nearest (fs : Frames) (env : Env) (x : String) (id : Nat) : Prop :=
  ∃ before after, env = before ++ id :: after ∧ (∀ j ∈ before, (fs.frame j).find? x = none) ∧
    ((fs.frame id).find? x).isSome

/-- The search along a chain finds the nearest frame that binds the name. -/
theorem Nearest.home?_eq (h : fs.Nearest env x id) : fs.home? env x = some id := by
  obtain ⟨before, after, rfl, unbound, bound⟩ := h
  induction before with
  | nil => rw [List.nil_append, home?, if_pos bound]
  | cons j before ih =>
      obtain ⟨first, others⟩ := List.forall_mem_cons.mp unbound
      rw [List.cons_append, home?, if_neg (by rw [first]; exact Bool.false_ne_true)]
      exact ih others

theorem nearest_of_home? (h : fs.home? env x = some id) : fs.Nearest env x id := by
  induction env with
  | nil => cases h
  | cons j outer ih =>
      rw [home?] at h
      split at h
      next bound =>
        obtain rfl := Option.some.inj h
        exact ⟨[], outer, rfl, List.forall_mem_nil _, bound⟩
      next unbound =>
        obtain ⟨before, after, rfl, others, bound⟩ := ih h
        refine ⟨j :: before, after, rfl, List.forall_mem_cons.mpr ⟨?_, others⟩, bound⟩
        exact Option.not_isSome_iff_eq_none.mp unbound

/-- A variable has the value of its nearest binding. -/
theorem lookup_of_nearest (h : fs.Nearest env x id) :
    fs.lookup env x = (fs.frame id).find? x := by
  rw [lookup_eq, h.home?_eq, Option.bind_some]

/-- A variable has a value exactly if some frame of the chain binds it. -/
theorem lookup_isSome_iff : (fs.lookup env x).isSome ↔ ∃ id, fs.Nearest env x id := by
  constructor
  · intro found
    cases home : fs.home? env x with
    | none =>
        rw [lookup_eq, home, Option.bind_none] at found
        cases found
    | some id => exact ⟨id, nearest_of_home? home⟩
  · rintro ⟨id, near⟩
    rw [lookup_of_nearest near]
    obtain ⟨_, _, -, -, bound⟩ := near
    exact bound

/-- The frames differ in the value of one binding, and in nothing else. -/
structure Rebound (fs fs' : Frames) (id : Nat) (x : String) (v : Value) : Prop where
  size : fs'.size = fs.size
  names : ∀ j, (fs'.frame j).names = (fs.frame j).names
  changed : (fs'.frame id).find? x = some v
  kept : ∀ j y, ¬(j = id ∧ y = x) → (fs'.frame j).find? y = (fs.frame j).find? y

theorem rebound_bind (h : fs.Nearest env x id) (v : Value) :
    fs.Rebound (fs.bind id x v) id x v := by
  have home := h.home?_eq
  have inside := lt_size_of_mem_names (home?_eq_some home).2
  refine ⟨size_bind, names_bind home, ?_, fun j y other => ?_⟩
  · rw [frame_bind_self inside, Frame.find?_bind_self]
  · by_cases hj : j = id
    · subst hj
      rw [frame_bind_self inside, Frame.find?_bind_of_ne fun hy => other ⟨rfl, hy⟩]
    · rw [frame_bind_of_ne hj]

namespace Rebound

variable (h : fs.Rebound fs' id x v)

include h

/-- No variable leads to another binding than before. -/
theorem nearest_iff : fs'.Nearest env y j ↔ fs.Nearest env y j := by
  have home := home?_congr (x := y) fun k (_ : k ∈ env) => h.names k
  exact ⟨fun near => nearest_of_home? (home.symm.trans near.home?_eq),
    fun near => nearest_of_home? (home.trans near.home?_eq)⟩

/-- A variable that leads to the binding has its new value. -/
theorem lookup_of_nearest (near : fs.Nearest env x id) : fs'.lookup env x = some v := by
  rw [Frames.lookup_of_nearest (h.nearest_iff.mpr near), h.changed]

/-- Every other variable has the value that it had. -/
theorem lookup_of_not_nearest (other : ¬(y = x ∧ fs.Nearest env y id)) :
    fs'.lookup env y = fs.lookup env y := by
  have home := home?_congr (x := y) fun j (_ : j ∈ env) => h.names j
  cases found : fs.home? env y with
  | none => rw [lookup_eq, lookup_eq, home, found, Option.bind_none, Option.bind_none]
  | some j =>
      rw [lookup_eq, lookup_eq, home, found, Option.bind_some, Option.bind_some]
      refine h.kept j y ?_
      rintro ⟨rfl, rfl⟩
      exact other ⟨rfl, nearest_of_home? found⟩

end Rebound

/-- An assignment is made exactly where the variable has a value. -/
theorem assign_isSome_iff : (fs.assign env x v).2 = true ↔ (fs.lookup env x).isSome := by
  rw [lookup_isSome_iff]
  constructor
  · intro assigned
    cases home : fs.home? env x with
    | none =>
        rw [assign_of_unbound home] at assigned
        cases assigned
    | some id => exact ⟨id, nearest_of_home? home⟩
  · rintro ⟨id, near⟩
    rw [assign_of_home? near.home?_eq]

end Frames

/-- The frame law of variables. A variable has a value exactly where some frame of the chain
binds it, and there exactly it can be assigned. An assignment that fails changes no frame.
One that succeeds changes the nearest binding of the name and nothing else; along every
chain, a variable that leads to this binding has the new value afterwards, and every other
one has the value it had. -/
theorem State.assignment_frame_law (s : State) (x : String) (v : Value)
    (andThen : State → State) :
    ((s.frames.lookup s.env x).isSome ↔ ∃ id, s.frames.Nearest s.env x id) ∧
    ((s.frames.assign s.env x v).2 = true ↔ (s.frames.lookup s.env x).isSome) ∧
    ((s.frames.assign s.env x v).2 = false →
      (s.frames.assign s.env x v).1 = s.frames ∧ s.assign x v andThen = s.fail (.undefined x)) ∧
    ((s.frames.assign s.env x v).2 = true →
      ∃ id frames, (s.frames.assign s.env x v).1 = frames ∧
        s.assign x v andThen = andThen { s with frames := frames } ∧
        s.frames.Nearest s.env x id ∧ s.frames.Rebound frames id x v ∧
        frames.lookup s.env x = some v ∧
        ∀ env y,
          (y = x ∧ s.frames.Nearest env y id → frames.lookup env y = some v) ∧
          (¬(y = x ∧ s.frames.Nearest env y id) →
            frames.lookup env y = s.frames.lookup env y)) := by
  refine ⟨Frames.lookup_isSome_iff, Frames.assign_isSome_iff, fun failed => ?_, fun assigned => ?_⟩
  · have home : s.frames.home? s.env x = none := by
      cases home : s.frames.home? s.env x with
      | none => rfl
      | some id =>
          rw [Frames.assign_of_home? home] at failed
          cases failed
    rw [Frames.assign_of_unbound home]
    exact ⟨rfl, State.assign_of_unbound home v andThen⟩
  · obtain ⟨id, near⟩ := Frames.lookup_isSome_iff.mp (Frames.assign_isSome_iff.mp assigned)
    have rebound := Frames.rebound_bind near v
    refine ⟨id, s.frames.bind id x v, ?_, State.assign_of_home? near.home?_eq v andThen, near,
      rebound, rebound.lookup_of_nearest near, fun env y => ⟨?_, rebound.lookup_of_not_nearest⟩⟩
    · rw [Frames.assign_of_home? near.home?_eq]
    · rintro ⟨rfl, here⟩
      exact rebound.lookup_of_nearest here

/-- Two functions see the variable `x` of the program, and the second one hides it. -/
def sharingFrames : Frames :=
  #[[("x", .null)], [("y", .null)], [("x", .bool false)]]

/-- The first of the two functions runs. -/
def sharing : State :=
  { control := .value .null, pending := [], env := [1, 0], depth := 1
    frames := sharingFrames, heap := {}, out := "", err := "" }

/-- What the first function assigns to `x`, the program sees and the second function
does not. The first function does not see its `z`. -/
theorem State.assignment_frame_law_sharing :
    (sharingFrames.assign [1, 0] "x" (.bool true)).2 = true ∧
      (sharingFrames.assign [1, 0] "x" (.bool true)).1.lookup [0] "x" = some (.bool true) ∧
      (sharingFrames.assign [1, 0] "x" (.bool true)).1.lookup [2, 0] "x" = some (.bool false) ∧
      (sharingFrames.assign [1, 0] "z" .null).1 = sharingFrames := by
  have assigned : (sharingFrames.assign [1, 0] "x" (.bool true)).2 = true := by decide
  have failed : (sharingFrames.assign [1, 0] "z" .null).2 = false := by decide
  obtain ⟨-, -, -, success⟩ := assignment_frame_law sharing "x" (.bool true) id
  obtain ⟨-, -, failure, -⟩ := assignment_frame_law sharing "z" .null id
  obtain ⟨id, frames, changed, -, near, -, -, others⟩ := success assigned
  have own : sharingFrames.home? [1, 0] "x" = some 0 := by decide
  obtain rfl : 0 = id := Option.some.inj (own.symm.trans near.home?_eq)
  obtain ⟨program, -⟩ := others [0] "x"
  obtain ⟨-, second⟩ := others [2, 0] "x"
  have changed : (sharingFrames.assign [1, 0] "x" (.bool true)).1 = frames := changed
  rw [changed]
  refine ⟨assigned, program ⟨rfl, Frames.nearest_of_home? (by decide)⟩, ?_, (failure failed).1⟩
  refine second ?_
  rintro ⟨-, hidden⟩
  have hidden : sharingFrames.home? [2, 0] "x" = some 0 := hidden.home?_eq
  revert hidden
  decide

end ScriptLang
