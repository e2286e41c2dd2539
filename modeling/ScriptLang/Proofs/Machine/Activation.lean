import ScriptLang.Proofs.Machine.Accesses
import ScriptLang.Proofs.Program.Fragment

/-!
# Activations of bodies

A frame of a run is an activation of one body of the program. A `Layout` names,
for every frame, the body together with the bodies around it and the chain of
frames that it sees. The layout is not part of a state: it says what the frames
of the state stand for.

`Layout.Describes` ties it to the frames. An activation binds exactly the names
of its body, and the frame next to it in its chain is an activation of the body
around it. From this alone, the frame in which a name is found is the one of the
innermost body that binds the name.

`State.Sound` adds what runs: everything a state is about to do, or has put off,
is a piece of the body of the activation it will be done in.
-/

namespace ScriptLang

namespace Function

/-- The names that an activation of the function binds. -/
def names (f : Function) : List String :=
  f.params ++ locals f.params f.body ++ (functionsOf f.body).map Function.name

/-- The program as a function without a name and without parameters. -/
def ofProgram (program : List Stmt) : Function := ⟨"", [], program⟩

/-- The statement that defines the function. -/
def definition (f : Function) : Stmt := .func f.name f.params f.body

/-- The function is defined in the body of another one, in whatever block. -/
def DefinedIn (f g : Function) : Prop :=
  (Fragment.stmt f.definition).Within (.stmts g.body)

/-- A name that the body binds is a name of the activation, unless the body takes
it from outside. -/
theorem mem_names_of_bound {f : Function} {x : String} (h : x ∈ boundInBody f.body)
    (ho : x ∉ outerInBlock f.body) : x ∈ f.names := by
  by_cases hp : x ∈ f.params
  · simp [names, hp]
  · by_cases hf : x ∈ (functionsOf f.body).map Function.name
    · exact List.mem_append_right _ hf
    · refine List.mem_append_left _ (List.mem_append_right _ ?_)
      simp only [locals, List.mem_filter, List.mem_eraseDups]
      exact ⟨h, by simpa using ⟨hp, ho, by simpa using hf⟩⟩

end Function

/-- A body of a program with the bodies around it, innermost first. -/
inductive Nest (program : List Stmt) : List Function → Prop where
  | program : Nest program [.ofProgram program]
  | function {f g : Function} {outer : List Function} :
      Nest program (g :: outer) → f.DefinedIn g → Nest program (f :: g :: outer)

/-- The names of the builtins. -/
def builtinNames : List String := Builtin.all.map Builtin.name

/-- How many bodies outwards a name is bound first. The builtins stand around the
program. -/
def binder? : List Function → String → Option Nat
  | [], x => if x ∈ builtinNames then some 0 else none
  | f :: outer, x => if x ∈ f.names then some 0 else (binder? outer x).map (· + 1)

/-- A name is bound nowhere exactly if no body and no builtin has it. -/
theorem binder?_eq_none {nest : List Function} {x : String} :
    binder? nest x = none ↔ x ∉ builtinNames ∧ ∀ f ∈ nest, x ∉ f.names := by
  induction nest with
  | nil => simp [binder?]
  | cons f outer ih =>
      by_cases h : x ∈ f.names
      · simp [binder?, h]
      · simp [binder?, h, ih]

theorem binder?_le {nest : List Function} {x : String} {k : Nat} (h : binder? nest x = some k) :
    k ≤ nest.length := by
  induction nest generalizing k with
  | nil =>
      simp only [binder?] at h
      split at h <;> simp_all
  | cons f outer ih =>
      simp only [binder?] at h
      split at h
      · obtain rfl : 0 = k := by simpa using h
        exact Nat.zero_le _
      · obtain ⟨j, hj, rfl⟩ := Option.map_eq_some_iff.mp h
        simpa using ih hj

/-- What a frame stands for. -/
structure Activation where
  /-- The body, then the bodies around it; none for the frame of the builtins. -/
  nest : List Function
  /-- The frame, then the frames it sees. -/
  env : Env

namespace Activation

/-- The body that an activation runs. -/
def code (a : Activation) : Fragment :=
  match a.nest with
  | [] => .stmts []
  | f :: _ => .stmts f.body

theorem code_eq {a : Activation} {f : Function} {outer : List Function}
    (h : a.nest = f :: outer) : a.code = .stmts f.body := by
  rw [code, h]

end Activation

/-- What the frames of a run stand for. -/
abbrev Layout := List Activation

namespace Layout

/-- The frames are activations of bodies of the program: each binds the names of
its body, and the first frame it sees is an activation of the body around it. -/
structure Describes (layout : Layout) (program : List Stmt) (fs : Frames) : Prop where
  size : layout.length = fs.size
  builtins : layout[0]? = some ⟨[], [0]⟩ ∧ ∀ x, x ∈ (fs.frame 0).names ↔ x ∈ builtinNames
  bodies : ∀ id a, 0 < id → layout[id]? = some a → ∃ f outer parent env,
    a = ⟨f :: outer, id :: parent :: env⟩ ∧ Nest program (f :: outer) ∧
      layout[parent]? = some ⟨outer, parent :: env⟩ ∧ ∀ x, x ∈ (fs.frame id).names ↔ x ∈ f.names

namespace Describes

variable {layout : Layout} {program : List Stmt} {fs fs' : Frames}

/-- Only the names of frames matter. -/
theorem congr (h : layout.Describes program fs) (hs : fs'.size = fs.size)
    (hn : ∀ id, (fs'.frame id).names = (fs.frame id).names) : layout.Describes program fs' where
  size := h.size.trans hs.symm
  builtins := by simpa only [hn] using h.builtins
  bodies := by simpa only [hn] using h.bodies

theorem bind (h : layout.Describes program fs) {env : Env} {x : String} {id : Nat}
    (hx : fs.home? env x = some id) (v : Value) : layout.Describes program (fs.bind id x v) :=
  h.congr Frames.size_bind (Frames.names_bind hx)

/-- The activation of a body, taken apart. -/
theorem of_mem (h : layout.Describes program fs) {f : Function} {outer : List Function}
    {env : Env} (ha : ⟨f :: outer, env⟩ ∈ layout) : ∃ id parent env', env = id :: parent :: env' ∧
      layout[id]? = some ⟨f :: outer, env⟩ ∧ Nest program (f :: outer) ∧
        layout[parent]? = some ⟨outer, parent :: env'⟩ ∧
          ∀ x, x ∈ (fs.frame id).names ↔ x ∈ f.names := by
  obtain ⟨id, hid⟩ := List.mem_iff_getElem?.mp ha
  have pos : 0 < id := by
    refine Nat.pos_of_ne_zero fun h0 => ?_
    subst h0
    simp [h.builtins.1] at hid
  obtain ⟨g, outer', parent, env', he, hn, hp, hx⟩ := h.bodies id _ pos hid
  obtain ⟨⟨rfl, rfl⟩, rfl⟩ := by simpa using he
  exact ⟨id, parent, env', rfl, hid, hn, hp, hx⟩

theorem env_of_mem (h : layout.Describes program fs) {env : Env} (ha : ⟨[], env⟩ ∈ layout) :
    env = [0] := by
  obtain ⟨id, hid⟩ := List.mem_iff_getElem?.mp ha
  by_cases pos : 0 < id
  · obtain ⟨f, outer, parent, env', he, -⟩ := h.bodies id _ pos hid
    simp at he
  · obtain rfl : id = 0 := by omega
    simpa [h.builtins.1] using hid.symm

/-- An activation stands for the first frame of its own chain. -/
theorem head_of_mem (h : layout.Describes program fs) {a : Activation} (ha : a ∈ layout) :
    ∃ id env, a.env = id :: env ∧ layout[id]? = some a := by
  obtain ⟨nest, env⟩ := a
  cases nest with
  | nil =>
      obtain rfl := h.env_of_mem ha
      exact ⟨0, [], rfl, h.builtins.1⟩
  | cons f outer =>
      obtain ⟨id, parent, env', rfl, hid, -⟩ := h.of_mem ha
      exact ⟨id, _, rfl, hid⟩

/-- The frames that an activation sees are activations of the bodies around its own. -/
theorem chain (h : layout.Describes program fs) {nest : List Function} {env : Env}
    (ha : ⟨nest, env⟩ ∈ layout) {k : Nat} (hk : k ≤ nest.length) :
    ∃ id, env[k]? = some id ∧ layout[id]? = some ⟨nest.drop k, env.drop k⟩ := by
  induction k generalizing nest env with
  | zero =>
      obtain ⟨id, env', he, hid⟩ := h.head_of_mem ha
      obtain rfl : env = id :: env' := he
      exact ⟨id, rfl, by simpa using hid⟩
  | succ k ih =>
      cases nest with
      | nil => simp at hk
      | cons f outer =>
          obtain ⟨id, parent, env', rfl, -, -, hp, -⟩ := h.of_mem ha
          simpa using ih (List.mem_of_getElem? hp) (by simpa using hk)

/-- A new frame stands for a body of the program, below a frame of the body around it. -/
theorem push (h : layout.Describes program fs) {f : Function} {outer : List Function} {env : Env}
    (ha : ⟨outer, env⟩ ∈ layout) (hn : Nest program (f :: outer)) (hs : fs'.size = fs.size + 1)
    (hold : ∀ id < fs.size, (fs'.frame id).names = (fs.frame id).names)
    (hnew : ∀ x, x ∈ (fs'.frame fs.size).names ↔ x ∈ f.names) :
    Describes (layout ++ [⟨f :: outer, fs.size :: env⟩]) program fs' := by
  have nonempty : 0 < layout.length := List.length_pos_of_mem ha
  have kept : ∀ {id : Nat} {a : Activation}, layout[id]? = some a →
      (layout ++ [(⟨f :: outer, fs.size :: env⟩ : Activation)])[id]? = some a := fun hid => by
    rw [List.getElem?_append_left (List.getElem?_eq_some_iff.mp hid).1, hid]
  refine ⟨by simp [h.size, hs], ⟨kept h.builtins.1, ?_⟩, ?_⟩
  · rw [hold 0 (h.size ▸ nonempty)]
    exact h.builtins.2
  · intro id a pos hid
    by_cases hlt : id < layout.length
    · rw [List.getElem?_append_left hlt] at hid
      obtain ⟨g, outer', parent, env', rfl, hn', hp, hx⟩ := h.bodies id a pos hid
      refine ⟨g, outer', parent, env', rfl, hn', kept hp, ?_⟩
      rw [hold id (h.size ▸ hlt)]
      exact hx
    · have hlast : id = layout.length := by
        have := (List.getElem?_eq_some_iff.mp hid).1
        simp at this
        omega
      subst hlast
      obtain ⟨parent, env', he, hp⟩ := h.head_of_mem ha
      obtain rfl : env = parent :: env' := he
      obtain rfl : _ = a := by simpa using hid
      refine ⟨f, outer, parent, env', by rw [h.size], hn, kept hp, ?_⟩
      rw [h.size]
      exact hnew

/-- A name is found in the frame of the innermost body that binds it. -/
theorem home? (h : layout.Describes program fs) {nest : List Function} {env : Env}
    (ha : ⟨nest, env⟩ ∈ layout) (x : String) :
    fs.home? env x = (binder? nest x).bind (env[·]?) := by
  induction nest generalizing env with
  | nil =>
      obtain rfl := h.env_of_mem ha
      have hx := h.builtins.2 x
      by_cases hb : x ∈ builtinNames
      · simp [Frames.home?, binder?, hb, Frame.mem_names_iff.mp (hx.mpr hb)]
      · have : ¬ ((fs.frame 0).find? x).isSome := by
          rw [← Frame.mem_names_iff, hx]
          exact hb
        simp [Frames.home?, binder?, hb, this]
  | cons f outer ih =>
      obtain ⟨id, parent, env', rfl, -, -, hp, hn⟩ := h.of_mem ha
      have outward := ih (List.mem_iff_getElem?.mpr ⟨_, hp⟩)
      by_cases hx : x ∈ f.names
      · simp [Frames.home?, binder?, hx, Frame.mem_names_iff.mp ((hn x).mpr hx)]
      · have : ¬ ((fs.frame id).find? x).isSome := by
          rw [← Frame.mem_names_iff, hn]
          exact hx
        rw [Frames.home?, if_neg this, outward, binder?, if_neg hx]
        cases binder? outer x <;> simp

/-- A name that the body binds itself is found in the activation's own frame. -/
theorem home?_of_mem (h : layout.Describes program fs) {f : Function} {outer : List Function}
    {env : Env} (ha : ⟨f :: outer, env⟩ ∈ layout) {x : String} (hx : x ∈ f.names) :
    fs.home? env x = env.head? := by
  rw [h.home? ha, binder?, if_pos hx]
  cases env <;> rfl

end Describes

end Layout

end ScriptLang
