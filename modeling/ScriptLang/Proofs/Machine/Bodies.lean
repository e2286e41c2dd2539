import Mathlib.Tactic.Tauto
import ScriptLang.Proofs.Machine.Variables

/-!
# Bodies that are entered

A body begins in a new frame, in which the functions at its top are bound one after the
other as closures over that frame. Then its statements run: all of them, or all but a last
expression statement, which is kept for its value. Nothing else of the state changes.
-/

namespace ScriptLang

namespace State

variable {o : Options} {s : State} {frame : Frame} {outer : Env} {body : List Stmt}

/-! ## The functions at the top -/

section define

variable (s : State) (id : Nat) (functions : List Function)

/-- Nothing but the frames and the heap changes. -/
theorem define_eq : s.define id functions =
    { s with
      frames := (s.define id functions).frames
      heap := (s.define id functions).heap } := by
  induction functions generalizing s with
  | nil => rfl
  | cons f rest ih => exact ih _

@[simp] theorem pending_define : (s.define id functions).pending = s.pending := by
  rw [define_eq]

@[simp] theorem env_define : (s.define id functions).env = s.env := by
  rw [define_eq]

@[simp] theorem depth_define : (s.define id functions).depth = s.depth := by
  rw [define_eq]

@[simp] theorem size_define : (s.define id functions).frames.size = s.frames.size := by
  induction functions generalizing s with
  | nil => rfl
  | cons f rest ih => rw [define, ih, Frames.size_bind]

@[simp] theorem maps_define : (s.define id functions).heap.maps = s.heap.maps := by
  induction functions generalizing s with
  | nil => rfl
  | cons f rest ih =>
      rw [define, ih]
      rfl

theorem frame_define_of_ne {j : Nat} (h : j ≠ id) :
    (s.define id functions).frames.frame j = s.frames.frame j := by
  induction functions generalizing s with
  | nil => rfl
  | cons f rest ih => rw [define, ih, Frames.frame_bind_of_ne h]

theorem names_define {id : Nat} (h : id < s.frames.size) (x : String) :
    x ∈ ((s.define id functions).frames.frame id).names ↔
      x ∈ (s.frames.frame id).names ∨ x ∈ functions.map Function.name := by
  induction functions generalizing s with
  | nil => simp [define]
  | cons f rest ih =>
      rw [define, ih _ (by simpa using h), Frames.frame_bind_self h, Frame.mem_names_bind]
      simp only [List.map_cons, List.mem_cons]
      tauto

theorem closures_define {c : Closure} (h : c ∈ (s.define id functions).heap.closures) :
    c ∈ s.heap.closures ∨ ∃ f ∈ functions, c = ⟨f, s.env⟩ := by
  induction functions generalizing s with
  | nil => exact .inl h
  | cons f rest ih =>
      rcases ih _ h with hc | ⟨g, hg, rfl⟩
      · rcases Array.mem_push.mp hc with hc | rfl
        · exact .inl hc
        · exact .inr ⟨f, List.mem_cons_self, rfl⟩
      · exact .inr ⟨g, List.mem_cons_of_mem _ hg, rfl⟩

end define

/-! ## The statements that run -/

/-- Under implicit return, a function's body that ends in an expression keeps it. -/
theorem execBody_append_expr (h : o.implicitReturn = true) (hd : s.depth ≠ 0)
    (rest : List Stmt) (last : Expr) : execBody o s (rest ++ [.expr last]) =
      { s with control := .exec rest, pending := .trailing last :: s.pending } := by
  have keeps : o.implicitReturn = true ∧ s.depth ≠ 0 := ⟨h, hd⟩
  simp [execBody, keeps]

/-- A body that does not end in an expression runs as a whole. -/
theorem execBody_of_ne (h : ∀ rest last, body ≠ rest ++ [.expr last]) :
    execBody o s body = s.goto (.exec body) := by
  unfold execBody
  split
  next last found =>
    obtain ⟨rest, rfl⟩ := List.getLast?_eq_some_iff.mp found
    exact absurd rfl (h rest last)
  next => rfl

/-- So does every body without implicit return. -/
theorem execBody_of_explicit (h : o.implicitReturn = false) :
    execBody o s body = s.goto (.exec body) := by
  unfold execBody
  split
  · rw [if_neg (by simp [h])]
  · rfl

/-- So does the program itself, at depth zero. -/
theorem execBody_of_depth_zero (h : s.depth = 0) : execBody o s body = s.goto (.exec body) := by
  unfold execBody
  split
  · rw [if_neg (by simp [h])]
  · rfl

/-- What runs is all of a body, or all but a last expression. -/
theorem execBody_cases (o : Options) (s : State) (body : List Stmt) :
    execBody o s body = s.goto (.exec body) ∨
      ∃ rest last, body = rest ++ [.expr last] ∧ s.depth ≠ 0 ∧ execBody o s body =
        { s with control := .exec rest, pending := .trailing last :: s.pending } := by
  by_cases ends : ∃ rest last, body = rest ++ [.expr last]
  · obtain ⟨rest, last, rfl⟩ := ends
    by_cases keeps : o.implicitReturn = true ∧ s.depth ≠ 0
    · exact .inr ⟨rest, last, rfl, keeps.2, execBody_append_expr keeps.1 keeps.2 rest last⟩
    · refine .inl ?_
      simp [execBody, keeps]
  · exact .inl (execBody_of_ne fun rest last h => ends ⟨rest, last, h⟩)

/-! ## The state in the body -/

section execBody

variable (o : Options) (s : State) (body : List Stmt)

@[simp] theorem env_execBody : (execBody o s body).env = s.env := by
  rcases execBody_cases o s body with h | ⟨_, _, -, -, h⟩ <;> rw [h] <;> rfl

@[simp] theorem depth_execBody : (execBody o s body).depth = s.depth := by
  rcases execBody_cases o s body with h | ⟨_, _, -, -, h⟩ <;> rw [h] <;> rfl

@[simp] theorem frames_execBody : (execBody o s body).frames = s.frames := by
  rcases execBody_cases o s body with h | ⟨_, _, -, -, h⟩ <;> rw [h] <;> rfl

@[simp] theorem heap_execBody : (execBody o s body).heap = s.heap := by
  rcases execBody_cases o s body with h | ⟨_, _, -, -, h⟩ <;> rw [h] <;> rfl

end execBody

@[simp] theorem env_enterBody :
    (enterBody o s frame outer body).env = s.frames.size :: outer := by
  simp [enterBody]

@[simp] theorem depth_enterBody : (enterBody o s frame outer body).depth = s.depth := by
  simp [enterBody]

@[simp] theorem size_enterBody :
    (enterBody o s frame outer body).frames.size = s.frames.size + 1 := by
  simp [enterBody]

@[simp] theorem maps_enterBody : (enterBody o s frame outer body).heap.maps = s.heap.maps := by
  simp [enterBody]

/-- Entering a body leaves the frames that exist alone. -/
theorem frame_enterBody {j : Nat} (h : j < s.frames.size) :
    (enterBody o s frame outer body).frames.frame j = s.frames.frame j := by
  rw [enterBody, frames_execBody, frame_define_of_ne _ _ _ (Nat.ne_of_lt h)]
  exact Frames.frame_push_of_lt h

/-- The new frame binds its own names and those of the functions at the top. -/
theorem names_enterBody (x : String) :
    x ∈ ((enterBody o s frame outer body).frames.frame s.frames.size).names ↔
      x ∈ frame.names ∨ x ∈ (functionsOf body).map Function.name := by
  rw [enterBody, frames_execBody, names_define _ _ (by simp), Frames.frame_push_size]

/-- The functions at the top are closed over the new frame. -/
theorem closures_enterBody {c : Closure}
    (h : c ∈ (enterBody o s frame outer body).heap.closures) :
    c ∈ s.heap.closures ∨ ∃ f ∈ functionsOf body, c = ⟨f, s.frames.size :: outer⟩ := by
  rw [enterBody, heap_execBody] at h
  exact closures_define _ _ _ h

/-- What runs of the body, and what waits for its end. -/
theorem enterBody_runs (o : Options) (s : State) (frame : Frame) (outer : Env)
    (body : List Stmt) :
    ((enterBody o s frame outer body).control = .exec body ∧
        (enterBody o s frame outer body).pending = s.pending) ∨
      ∃ rest last, body = rest ++ [.expr last] ∧ s.depth ≠ 0 ∧
        (enterBody o s frame outer body).control = .exec rest ∧
        (enterBody o s frame outer body).pending = .trailing last :: s.pending := by
  unfold enterBody
  dsimp only
  generalize entered : define _ _ _ = t
  have pending : t.pending = s.pending := by
    rw [← entered, pending_define]
  have depth : t.depth = s.depth := by
    rw [← entered, depth_define]
  rcases execBody_cases o t body with h | ⟨rest, last, rfl, deep, h⟩
  · exact .inl ⟨by rw [h]; rfl, by rw [h, ← pending]; rfl⟩
  · exact .inr ⟨rest, last, rfl, depth ▸ deep, by rw [h], by rw [h, pending]⟩

/-- Statements run in any case. -/
theorem exists_control_enterBody (o : Options) (s : State) (frame : Frame) (outer : Env)
    (body : List Stmt) : ∃ statements,
      (enterBody o s frame outer body).control = .exec statements := by
  rcases enterBody_runs o s frame outer body with ⟨h, -⟩ | ⟨rest, last, -, -, h, -⟩
  · exact ⟨body, h⟩
  · exact ⟨rest, h⟩

end State

end ScriptLang
