import ScriptLang.Machine.Step

/-!
# Variables in frames

Binding a name in a frame changes that name only, and the names of a frame stay
the same when the name was bound before. Reading a variable and assigning to it go
along the chain of frames each on its own, and both come to its `home?`, the first
frame that binds the name. Since this depends on the names of frames alone, no
assignment changes where another one goes.

`assignAll` assigns several variables one after the other, up to the first that
is bound nowhere.
-/

namespace ScriptLang

namespace Frame

theorem mem_names_iff {x : String} {f : Frame} : x ∈ f.names ↔ (f.find? x).isSome := by
  induction f with
  | nil => simp [names, find?]
  | cons b rest ih =>
      obtain ⟨y, v⟩ := b
      by_cases h : y = x
      · simp [names, find?, h]
      · simp only [names, List.map_cons, List.mem_cons, Ne.symm h, false_or, find?, if_neg h]
        exact ih

@[simp] theorem find?_bind_self (f : Frame) (x : String) (v : Value) :
    (f.bind x v).find? x = some v := by
  induction f with
  | nil => simp [bind, find?]
  | cons b rest ih =>
      obtain ⟨y, w⟩ := b
      by_cases h : y = x
      · simp [bind, find?, h]
      · simp [bind, find?, h, ih]

theorem find?_bind_of_ne {x y : String} (h : x ≠ y) (f : Frame) (v : Value) :
    (f.bind y v).find? x = f.find? x := by
  induction f with
  | nil => simp [bind, find?, h.symm]
  | cons b rest ih =>
      obtain ⟨z, w⟩ := b
      by_cases hz : z = y
      · subst hz
        simp [bind, find?, h.symm]
      · simp [bind, find?, hz, ih]

theorem mem_names_bind {x y : String} {f : Frame} {v : Value} :
    x ∈ (f.bind y v).names ↔ x = y ∨ x ∈ f.names := by
  by_cases h : x = y
  · simp [mem_names_iff, h]
  · simp [mem_names_iff, find?_bind_of_ne h, h]

/-- Binding a name that is bound already keeps the names and their order. -/
theorem names_bind_of_mem {x : String} {f : Frame} (h : x ∈ f.names) (v : Value) :
    (f.bind x v).names = f.names := by
  induction f with
  | nil => simp [names] at h
  | cons b rest ih =>
      obtain ⟨y, w⟩ := b
      by_cases hy : y = x
      · simp [bind, names, hy]
      · have : x ∈ names rest := by simpa [names, Ne.symm hy] using h
        simpa [bind, names, hy] using ih this

theorem mem_names_bindAll {x : String} {f : Frame} {bindings : List (String × Value)} :
    x ∈ (f.bindAll bindings).names ↔ x ∈ f.names ∨ x ∈ bindings.map Prod.fst := by
  induction bindings generalizing f with
  | nil => simp [bindAll]
  | cons b rest ih =>
      rw [show f.bindAll (b :: rest) = (f.bind b.1 b.2).bindAll rest from rfl, ih,
        mem_names_bind, List.map_cons, List.mem_cons]
      exact ⟨by rintro ((h | h) | h) <;> simp [h], by rintro (h | h | h) <;> simp [h]⟩

end Frame

namespace Frames

variable {fs fs' : Frames} {env : Env} {x y : String} {v : Value} {id j : Nat}

@[simp] theorem size_bind : (fs.bind id x v).size = fs.size := by simp [bind]

theorem frame_bind_self (h : id < fs.size) :
    (fs.bind id x v).frame id = (fs.frame id).bind x v := by
  simp [frame, bind, h, Array.getElem_modify]

theorem frame_bind_of_ne (h : j ≠ id) : (fs.bind id x v).frame j = fs.frame j := by
  simp [frame, bind, Array.getElem?_modify, h.symm]

theorem frame_push_of_lt {f : Frame} (h : j < fs.size) :
    Frames.frame (fs.push f) j = fs.frame j := by
  simp [frame, Array.getElem?_push, h, Nat.ne_of_lt h]

@[simp] theorem frame_push_size {f : Frame} : Frames.frame (fs.push f) fs.size = f := by
  simp [frame]

/-- The first frame of a chain that binds a name. -/
def home? (fs : Frames) : Env → String → Option Nat
  | [], _ => none
  | id :: outer, name => if ((fs.frame id).find? name).isSome then some id else home? fs outer name

/-- A variable has the value of its first binding. -/
theorem lookup_eq : fs.lookup env x = (fs.home? env x).bind fun id => (fs.frame id).find? x := by
  induction env with
  | nil => rfl
  | cons id outer ih =>
      cases found : (fs.frame id).find? x with
      | some v => simp [lookup, home?, found]
      | none => simp [lookup, home?, found, ih]

/-- Assigning to a variable changes its first binding. -/
theorem assign_of_home? (h : fs.home? env x = some id) (v : Value) :
    fs.assign env x v = (fs.bind id x v, true) := by
  induction env with
  | nil => cases h
  | cons j outer ih =>
      by_cases bound : ((fs.frame j).find? x).isSome
      · rw [home?, if_pos bound] at h
        obtain rfl := Option.some.inj h
        rw [assign, if_pos bound]
      · rw [home?, if_neg bound] at h
        rw [assign, if_neg bound, ih h]

/-- A variable that is bound nowhere is not assigned, and no frame changes. -/
theorem assign_of_unbound (h : fs.home? env x = none) (v : Value) :
    fs.assign env x v = (fs, false) := by
  induction env with
  | nil => rfl
  | cons j outer ih =>
      by_cases bound : ((fs.frame j).find? x).isSome
      · rw [home?, if_pos bound] at h
        cases h
      · rw [home?, if_neg bound] at h
        rw [assign, if_neg bound, ih h]

/-- A frame that binds something is one of the frames of the run. -/
theorem lt_size_of_mem_names (h : x ∈ (fs.frame id).names) : id < fs.size := by
  refine Nat.lt_of_not_le fun hid => ?_
  simp [frame, Array.getElem?_eq_none hid, Frame.names] at h

theorem home?_eq_some (h : fs.home? env x = some id) :
    id ∈ env ∧ x ∈ (fs.frame id).names := by
  induction env with
  | nil => simp [home?] at h
  | cons j outer ih =>
      by_cases hj : ((fs.frame j).find? x).isSome
      · simp only [home?, if_pos hj, Option.some.injEq] at h
        subst h
        exact ⟨List.mem_cons_self, Frame.mem_names_iff.mpr hj⟩
      · rw [home?, if_neg hj] at h
        exact ⟨List.mem_cons_of_mem _ (ih h).1, (ih h).2⟩

/-- Where a variable is found depends on the names of the frames alone. -/
theorem home?_congr (h : ∀ j ∈ env, (fs'.frame j).names = (fs.frame j).names) :
    fs'.home? env x = fs.home? env x := by
  induction env with
  | nil => rfl
  | cons j outer ih =>
      have hj : ((fs'.frame j).find? x).isSome = ((fs.frame j).find? x).isSome := by
        rw [Bool.eq_iff_iff, ← Frame.mem_names_iff, ← Frame.mem_names_iff,
          h j List.mem_cons_self]
      simp only [home?, hj, ih fun k hk => h k (List.mem_cons_of_mem _ hk)]

/-- An assignment keeps the names of every frame. -/
theorem names_bind (h : fs.home? env x = some id) (j : Nat) :
    ((fs.bind id x v).frame j).names = (fs.frame j).names := by
  have hx := (home?_eq_some h).2
  by_cases hj : j = id
  · subst hj
    rw [frame_bind_self (lt_size_of_mem_names hx), Frame.names_bind_of_mem hx]
  · rw [frame_bind_of_ne hj]

@[simp] theorem home?_bind {env' : Env} (h : fs.home? env x = some id) :
    (fs.bind id x v).home? env' y = fs.home? env' y :=
  home?_congr fun j _ => names_bind h j

/-- Assign several variables, each in the frame where it is found. -/
def assignAll (env : Env) : List (String × Value) → Frames → Frames
  | [], fs => fs
  | (x, v) :: rest, fs =>
    match fs.home? env x with
    | some id => assignAll env rest (fs.bind id x v)
    | none => fs

/-- The first of some names that has no value along a chain of frames. -/
def unbound? (fs : Frames) (env : Env) (names : List String) : Option String :=
  names.find? fun x => (fs.lookup env x).isNone

/-- A variable has no value exactly if no frame of the chain binds it. -/
theorem isNone_lookup : (fs.lookup env x).isNone = (fs.home? env x).isNone := by
  rw [lookup_eq]
  cases home : fs.home? env x with
  | none => rfl
  | some id =>
      have bound := Frame.mem_names_iff.mp (home?_eq_some home).2
      obtain ⟨v, found⟩ := Option.isSome_iff_exists.mp bound
      simp [found]

theorem unbound?_eq {names : List String} :
    fs.unbound? env names = names.find? fun x => (fs.home? env x).isNone := by
  simp only [unbound?, isNone_lookup]

@[simp] theorem unbound?_nil : fs.unbound? env [] = none := rfl

theorem unbound?_cons_of_some {rest : List String} (h : fs.home? env x = some id) :
    fs.unbound? env (x :: rest) = fs.unbound? env rest := by
  simp [unbound?_eq, h]

theorem unbound?_cons_of_none {rest : List String} (h : fs.home? env x = none) :
    fs.unbound? env (x :: rest) = some x := by
  simp [unbound?_eq, h]

theorem unbound?_bind {names : List String} {env' : Env} (h : fs.home? env x = some id) :
    (fs.bind id x v).unbound? env' names = fs.unbound? env' names := by
  simp [unbound?_eq, home?_bind h]

theorem names_assignAll (writes : List (String × Value)) (j : Nat) :
    ((fs.assignAll env writes).frame j).names = (fs.frame j).names := by
  induction writes generalizing fs with
  | nil => rfl
  | cons w rest ih =>
      rw [assignAll]
      split
      next id h => rw [ih, names_bind h]
      next => rfl

end Frames

namespace State

variable {s : State} {x : String} {id : Nat}

theorem assign_of_home? (h : s.frames.home? s.env x = some id) (v : Value)
    (andThen : State → State) :
    s.assign x v andThen = andThen { s with frames := s.frames.bind id x v } := by
  have assigned := Frames.assign_of_home? h v
  simp only [assign, assigned]

theorem assign_of_unbound (h : s.frames.home? s.env x = none) (v : Value)
    (andThen : State → State) : s.assign x v andThen = s.fail (.undefined x) := by
  have assigned := Frames.assign_of_unbound h v
  simp only [assign, assigned]

end State

end ScriptLang
