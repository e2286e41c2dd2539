import ScriptLang.Proofs.Machine.Scoping

/-!
# Where the variables of a run are

Along every run, a variable is found in the activation of the innermost body that
binds its name, seen from the body whose piece is evaluated. What a step assigns
it assigns there and nowhere else, and it reports a variable as undefined exactly
if no body around the piece and no builtin binds the name.

An assignment, a loop, a handler and the function of a nested block bind the names
they give a value to, so these belong to the current activation unless its body
takes them from outside. An update binds nothing.
-/

namespace ScriptLang

namespace State

/-- The names that the next step assigns because the program binds them there. Of
everything that is assigned, only the target of an update is not bound. -/
def binds (s : State) : List String :=
  match s.control, s.pending with
  | .value _, .update .. :: _ => []
  | _, _ => s.writes.map Prod.fst

/-- Every state of a run stands in an activation of a body of the program. -/
theorem exists_sound (r : Run) (program : List Stmt) (n : Nat) :
    ∃ layout a, (after r program n).Sound layout program a := by
  induction n with
  | zero => exact ⟨_, _, sound_initial r.options program⟩
  | succ n ih =>
      obtain ⟨layout, a, sound⟩ := ih
      obtain ⟨layout', b, -, sound'⟩ := sound.next r
      exact ⟨layout', b, sound'⟩

variable {layout : Layout} {program : List Stmt} {a : Activation} {s : State}

/-! ## Bound names of a step -/

theorem bound_openedArm {arms : List Arm} (h : (Fragment.arms arms).Within a.code) :
    boundInBlock (openedArm arms) ⊆ a.code.bound := by
  match arms with
  | [] => simp [openedArm, boundInBlock]
  | .mk [] body :: rest =>
      have block : (Fragment.block body).Within a.code := h.part (by simp [Fragment.parts])
      exact block.bound_subset
  | .mk (_ :: _) body :: rest => simp [openedArm, boundInBlock]

theorem bound_opened {rest : Alternative} (h : (Fragment.alternative rest).Within a.code) :
    boundInBlock rest.opened ⊆ a.code.bound := by
  cases rest with
  | otherwise body =>
      have block : (Fragment.block body).Within a.code := h.part (by simp [Fragment.parts])
      exact block.bound_subset
  | _ => simp [Alternative.opened, boundInBlock]

/-- A nested block that is entered is a piece of the current body, so the body binds
what the block binds. -/
theorem Sound.bound_entered (h : Sound layout program a s) :
    boundInBlock s.entered ⊆ a.code.bound := by
  obtain ⟨control, pending, env, depth, frames, heap, out, err⟩ := s
  obtain ⟨w, ground, -, hc⟩ := h
  have none : boundInBlock [] ⊆ a.code.bound := by simp [boundInBlock]
  have pieces : ∀ {p : Pending} {rest : List Pending}, pending = p :: rest →
      ∀ f ∈ p.fragments, f.Within a.code := by
    rintro p rest rfl
    exact ground.stack.head.1
  cases control with
  | eval | apply => exact none
  | exec body =>
      cases body with
      | nil => exact none
      | cons stmt rest =>
          have first : (Fragment.stmt stmt).Within a.code := hc _ (by simp [Control.fragments])
          cases stmt with
          | doWhile test body | attempt body name handler =>
              have block : (Fragment.block body).Within a.code :=
                first.part (by simp [Fragment.parts])
              exact block.bound_subset
          | _ => exact none
  | value v =>
      cases pending with
      | nil => exact none
      | cons p rest =>
          have piece := pieces rfl
          cases p with
          | branch body rest =>
              simp only [Pending.fragments, List.forall_mem_cons] at piece
              simp only [entered]
              split
              · exact piece.1.bound_subset
              · exact bound_opened piece.2.1
          | loopTest test body =>
              have block := piece (.block body) (by simp [Pending.fragments])
              simp only [entered]
              split
              · exact block.bound_subset
              · exact none
          | iterable header body =>
              have block := piece (.block body) (by simp [Pending.fragments])
              simp only [entered]
              split
              · exact block.bound_subset
              · exact none
          | subject arms => exact bound_openedArm (piece _ (by simp [Pending.fragments]))
          | pattern subject patterns body rest =>
              have block := piece (.block body) (by simp [Pending.fragments])
              simp only [entered]
              split
              · exact block.bound_subset
              · split
                · exact bound_openedArm (piece _ (by simp [Pending.fragments]))
                · exact none
          | _ => exact none
  | flow f =>
      cases pending with
      | nil => cases f <;> exact none
      | cons p rest =>
          cases p with
          | rounds names rounds body =>
              have block := pieces rfl (.block body) (by simp [Pending.fragments])
              cases rounds <;> cases f <;> first | exact none | exact block.bound_subset
          | _ => cases f <;> exact none
  | raise u =>
      cases pending with
      | nil => exact none
      | cons p rest =>
          cases p with
          | handler name body =>
              have block := pieces rfl (.block body) (by simp [Pending.fragments])
              simp only [entered]
              split
              · exact block.bound_subset
              · exact none
          | _ => exact none

theorem map_fst_zip_subset (names : List String) (values : List Value) :
    (names.zip values).map Prod.fst ⊆ names := by
  intro x hx
  obtain ⟨⟨y, v⟩, hy, rfl⟩ := List.mem_map.mp hx
  exact (List.of_mem_zip hy).1

/-- Whatever is assigned before a block is entered, updates apart, is a name that the
pending work binds. -/
theorem Sound.bound_assigned (h : Sound layout program a s)
    (hu : ∀ v x op old rest, s.control = .value v → s.pending ≠ .update x op old :: rest) :
    s.assigned.map Prod.fst ⊆ a.code.bound := by
  obtain ⟨control, pending, env, depth, frames, heap, out, err⟩ := s
  obtain ⟨w, ground, -, -⟩ := h
  have binds : ∀ {p : Pending} {rest : List Pending} {names : List String},
      pending = p :: rest → names ⊆ p.binds → names ⊆ a.code.bound := by
    rintro p rest names rfl hn
    exact List.Subset.trans hn ground.stack.head.2
  unfold assigned
  split
  next v name rest hc hp => exact binds hp (by simp [Pending.binds])
  next v name op old rest hc hp => exact absurd hp (hu v name op old rest hc)
  next v header body rest hc hp =>
    split
    · exact binds hp (map_fst_zip_subset _ _)
    · simp
  next hp => exact binds hp (map_fst_zip_subset _ _)
  next hp => exact binds hp (map_fst_zip_subset _ _)
  next u name body rest hc hp =>
    refine binds hp ?_
    cases u.caught? <;> simp [Pending.binds]
  next => simp

/-- What a step assigns by binding is bound by the current body. -/
theorem Sound.bound_binds (h : Sound layout program a s) : s.binds ⊆ a.code.bound := by
  unfold binds
  split
  · simp
  next hu =>
    intro x hx
    simp only [writes, List.map_append, map_fst_functionWrites, List.mem_append] at hx
    rcases hx with hx | hx
    · refine h.bound_assigned (fun v x op old rest hc hp => ?_) hx
      exact hu v x op old rest hc hp
    · exact h.bound_entered (mem_boundInBlock.mpr (.inr hx))

/-! ## Resolution -/

/-- A name is found in the activation of the innermost body that binds it, or of the
builtins, and nowhere if none of them binds it. -/
theorem Sound.home? (h : Sound layout program a s) (x : String) :
    match binder? a.nest x with
    | none => s.frames.home? s.env x = none
    | some k => ∃ id, layout[id]? = some ⟨a.nest.drop k, s.env.drop k⟩ ∧
        s.frames.home? s.env x = some id := by
  obtain ⟨w, ground, -, -⟩ := h
  have found := ground.frames.home? ground.active x
  rw [ground.env] at found
  cases hk : binder? a.nest x with
  | none => simpa [hk] using found
  | some k =>
      obtain ⟨id, hid, hl⟩ := ground.frames.chain ground.active (binder?_le hk)
      rw [ground.env] at hid hl
      exact ⟨id, hl, by simpa [hk, hid] using found⟩

theorem Sound.isNone_home? (h : Sound layout program a s) (x : String) :
    (s.frames.home? s.env x).isNone = (binder? a.nest x).isNone := by
  have found := h.home? x
  cases hk : binder? a.nest x with
  | none =>
      rw [hk] at found
      simp [found]
  | some k =>
      rw [hk] at found
      obtain ⟨id, -, hid⟩ := found
      simp [hid]

/-- What a body binds and does not take from outside is found in the activation's own
frame. -/
theorem Sound.home?_of_bound {f : Function} {outer : List Function}
    (h : Sound layout program ⟨f :: outer, s.env⟩ s) {x : String}
    (hx : x ∈ (Activation.code ⟨f :: outer, s.env⟩).bound) (ho : x ∉ outerInBlock f.body) :
    s.frames.home? s.env x = s.env.head? := by
  obtain ⟨w, ground, -, -⟩ := h
  exact ground.frames.home?_of_mem ground.active (Function.mem_names_of_bound hx ho)

end State

/-- The state runs in an activation of a body `f` with the bodies `outer` around it,
and the variables that its next step touches are where the program says. -/
structure LexicallyScoped (r : Run) (program : List Stmt) (layout : Layout) (f : Function)
    (outer : List Function) (s : State) : Prop where
  /-- The frames are activations of bodies, and all that is done now or later is a piece
  of the body it belongs to. -/
  sound : s.Sound layout program ⟨f :: outer, s.env⟩
  /-- A name is found in the activation of the innermost body that binds it. -/
  resolves : ∀ x,
    match binder? (f :: outer) x with
    | none => s.frames.home? s.env x = none
    | some k => ∃ id, layout[id]? = some ⟨(f :: outer).drop k, s.env.drop k⟩ ∧
        s.frames.home? s.env x = some id
  /-- Reading a name gives the value it has there. -/
  reads : ∀ x k, s.control = .eval (.ident x) → constant? x = none →
    binder? (f :: outer) x = some k →
    ∃ id v, layout[id]? = some ⟨(f :: outer).drop k, s.env.drop k⟩ ∧
      (s.frames.frame id).find? x = some v ∧ s.next r = s.give v
  /-- The frames that exist change by the assignments of the step alone, -/
  writes : ∀ id < s.frames.size,
    (s.next r).frames.frame id = (s.frames.assignAll s.env s.writes).frame id
  /-- and their names never change. -/
  keeps : ∀ id < s.frames.size,
    ((s.next r).frames.frame id).names = (s.frames.frame id).names
  /-- A name is reported as undefined where it is touched and bound nowhere. -/
  undefined : (s.next r).control.undefined? =
    if s.passesBy then s.control.undefined?
    else s.touched.find? fun x => (binder? (f :: outer) x).isNone
  /-- A name that the step binds is found in the frame of the current activation,
  unless the body takes it from outside. -/
  binds : ∀ x ∈ s.binds, x ∉ outerInBlock f.body → s.frames.home? s.env x = s.env.head?
  /-- So a plain assignment to a name not taken from outside succeeds and changes the
  current activation's frame alone. -/
  stores : ∀ x v rest, s.control = .value v → s.pending = .store x :: rest →
    x ∉ outerInBlock f.body → ∃ id env, s.env = id :: env ∧
      layout[id]? = some ⟨f :: outer, s.env⟩ ∧
      s.next r = { s with control := .value v, pending := rest, frames := s.frames.bind id x v }

namespace State

variable {layout : Layout} {program : List Stmt} {s : State} {r : Run} {f : Function}
  {outer : List Function}

theorem Sound.next_of_store (h : Sound layout program ⟨f :: outer, s.env⟩ s) {x : String}
    {v : Value} {rest : List Pending} (hc : s.control = .value v)
    (hp : s.pending = .store x :: rest) (ho : x ∉ outerInBlock f.body) :
    ∃ id env, s.env = id :: env ∧ layout[id]? = some ⟨f :: outer, s.env⟩ ∧
      s.next r =
        { s with control := .value v, pending := rest, frames := s.frames.bind id x v } := by
  have bound : x ∈ (Activation.code ⟨f :: outer, s.env⟩).bound :=
    h.bound_binds (by simp [State.binds, State.writes, State.assigned, hc, hp])
  have own := h.home?_of_bound bound ho
  obtain ⟨w, ground, -, -⟩ := h
  obtain ⟨id, env, he, hid⟩ := ground.frames.head_of_mem ground.active
  have he : s.env = id :: env := he
  refine ⟨id, env, he, hid, ?_⟩
  rw [he, List.head?_cons, ← he] at own
  simp only [State.next, hc, hp, State.resume]
  rw [assign_of_home? (s := { s with control := .value v, pending := rest }) own]
  rfl

/-- The invariant gives every part of lexical scoping. -/
theorem Sound.lexicallyScoped (h : Sound layout program ⟨f :: outer, s.env⟩ s) :
    LexicallyScoped r program layout f outer s where
  sound := h
  resolves := h.home?
  reads := by
    intro x k hc hx hk
    have found := h.home? x
    rw [hk] at found
    obtain ⟨id, hl, hid⟩ := found
    obtain ⟨v, hv, he⟩ := eval_ident_of_home? hx hid
    refine ⟨id, v, hl, hv, ?_⟩
    rw [← he, State.next, hc]
  writes := (next_accesses r s).1
  keeps := by
    intro id hid
    rw [(next_accesses r s).1 id hid, Frames.names_assignAll]
  undefined := by
    rw [(next_accesses r s).2]
    simp only [Frames.unbound?_eq, h.isNone_home?]
  binds := fun x hx ho => h.home?_of_bound (h.bound_binds hx) ho
  stores := fun x v rest hc hp ho => h.next_of_store hc hp ho

end State

end ScriptLang
