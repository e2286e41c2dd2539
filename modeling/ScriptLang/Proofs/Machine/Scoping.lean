import ScriptLang.Proofs.Machine.Steps

/-!
# Lexical scoping of a run

Every step keeps the state sound: what is done next and what is put off are
pieces of the body whose activation is current, closures know the body they were
defined in, and a call makes an activation of the callee's body below the frame
that the closure saw. A frame, once made, stands for the same body and the same
chain ever after.

Work that waits for a value never stands above the end of a call, which waits for
the end of a statement. This is part of the invariant: a value that met the end
of a call would go on in the wrong activation.
-/

namespace ScriptLang

namespace Layout

/-- The closure was made in an activation of the body that defines its function. -/
def Owns (layout : Layout) (c : Closure) : Prop :=
  ∃ g outer, ⟨g :: outer, c.env⟩ ∈ layout ∧ c.function.DefinedIn g

/-- The pending work, seen from an activation: up to the end of its call, pieces
of its body, each coming to what the one below waits for; from there on, the same
for the activation of the caller. -/
inductive Stack (layout : Layout) : Activation → Wait → List Pending → Prop where
  | empty {a : Activation} {w : Wait} : Stack layout a w []
  | work {a : Activation} {p : Pending} {rest : List Pending} : p.isCaller = false →
      (∀ f ∈ p.fragments, f.Within a.code) → p.binds ⊆ a.code.bound →
      Stack layout a p.yields rest → Stack layout a p.awaits (p :: rest)
  | call {a b : Activation} {rest : List Pending} : b ∈ layout → b.nest ≠ [] →
      Stack layout b .value rest → Stack layout a .flow (.caller b.env :: rest)

variable {layout layout' : Layout} {a : Activation} {w : Wait} {p : Pending}
  {rest : List Pending}

theorem Owns.mono {c : Closure} (h : layout.Owns c) (hl : layout ⊆ layout') : layout'.Owns c := by
  obtain ⟨g, outer, ha, hd⟩ := h
  exact ⟨g, outer, hl ha, hd⟩

theorem Stack.mono (h : layout.Stack a w rest) (hl : layout ⊆ layout') :
    layout'.Stack a w rest := by
  induction h with
  | empty => exact .empty
  | work hp hf hb _ ih => exact .work hp hf hb ih
  | call hb hn _ ih => exact .call (hl hb) hn ih

theorem Stack.of_work (h : layout.Stack a w (p :: rest)) (hp : p.isCaller = false) :
    p.awaits = w ∧ (∀ f ∈ p.fragments, f.Within a.code) ∧ p.binds ⊆ a.code.bound ∧
      layout.Stack a p.yields rest := by
  cases h with
  | work _ hf hb hs => exact ⟨rfl, hf, hb, hs⟩
  | call => simp [Pending.isCaller] at hp

theorem Stack.awaits (h : layout.Stack a w (p :: rest)) : p.awaits = w := by
  cases h <;> rfl

theorem Stack.head (h : layout.Stack a w (p :: rest)) :
    (∀ f ∈ p.fragments, f.Within a.code) ∧ p.binds ⊆ a.code.bound := by
  cases h with
  | work _ hf hb _ => exact ⟨hf, hb⟩
  | call => simp [Pending.fragments, Pending.binds]

theorem Stack.of_caller {env : Env} (h : layout.Stack a w (.caller env :: rest)) :
    w = .flow ∧ ∃ b ∈ layout, b.nest ≠ [] ∧ b.env = env ∧ layout.Stack b .value rest := by
  cases h with
  | work hp => simp [Pending.isCaller] at hp
  | call hb hn hs => exact ⟨rfl, _, hb, hn, rfl, hs⟩

end Layout

namespace State

/-- The state runs in an activation, apart from what is done next. -/
structure Grounded (layout : Layout) (program : List Stmt) (a : Activation) (w : Wait)
    (s : State) : Prop where
  frames : layout.Describes program s.frames
  closures : ∀ c ∈ s.heap.closures, layout.Owns c
  active : a ∈ layout
  body : a.nest ≠ []
  env : a.env = s.env
  stack : layout.Stack a w s.pending

/-- What is done next is a piece of the body of the current activation as well, and
comes to what is waited for. -/
def Sound (layout : Layout) (program : List Stmt) (a : Activation) (s : State) : Prop :=
  ∃ w, Grounded layout program a w s ∧ s.control.yields w ∧
    ∀ f ∈ s.control.fragments, f.Within a.code

variable {layout : Layout} {program : List Stmt} {a : Activation} {w : Wait} {s : State}

namespace Grounded

theorem goto (h : Grounded layout program a w s) {c : Control} (hw : c.yields w)
    (hc : ∀ f ∈ c.fragments, f.Within a.code) : Sound layout program a (s.goto c) :=
  ⟨w, ⟨h.frames, h.closures, h.active, h.body, h.env, h.stack⟩, hw, hc⟩

theorem push (h : Grounded layout program a w s) {p : Pending} (hy : p.yields = w)
    (hp : p.isCaller = false) (hf : ∀ f ∈ p.fragments, f.Within a.code)
    (hb : p.binds ⊆ a.code.bound) :
    Grounded layout program a p.awaits { s with pending := p :: s.pending } :=
  ⟨h.frames, h.closures, h.active, h.body, h.env, .work hp hf hb (hy ▸ h.stack)⟩

/-- Changes to containers and output are of no account. -/
theorem congr {t : State} (h : Grounded layout program a w s) (hf : t.frames = s.frames)
    (hc : t.heap.closures = s.heap.closures) (he : t.env = s.env) (hp : t.pending = s.pending) :
    Grounded layout program a w t :=
  ⟨hf ▸ h.frames, hc ▸ h.closures, h.active, h.body, he ▸ h.env, hp ▸ h.stack⟩

theorem bind (h : Grounded layout program a w s) {env : Env} {x : String} {id : Nat}
    (hx : s.frames.home? env x = some id) (v : Value) :
    Grounded layout program a w { s with frames := s.frames.bind id x v } :=
  ⟨h.frames.bind hx v, h.closures, h.active, h.body, h.env, h.stack⟩

/-- The functions of a block are closed over the current activation. -/
theorem addClosure (h : Grounded layout program a w s) {f : Function}
    (hf : (Fragment.stmt f.definition).Within a.code) :
    Grounded layout program a w { s with heap := s.heap.addClosure f s.env } := by
  refine ⟨h.frames, fun c hc => ?_, h.active, h.body, h.env, h.stack⟩
  rcases Array.mem_push.mp hc with hc | rfl
  · exact h.closures c hc
  · obtain ⟨g, outer, hn⟩ := List.exists_cons_of_ne_nil h.body
    refine ⟨g, outer, ?_, ?_⟩
    · rw [← hn, ← h.env]
      exact h.active
    · rwa [Activation.code_eq hn] at hf

/-- Each small change of a step keeps the state in its activation, if the code at hand lies
in the body. -/
theorem does {j : Job} {t : State} (h : Grounded layout program a w s)
    (code : ∀ f ∈ j.code, f.Within a.code) (names : j.names ⊆ a.code.bound)
    (d : j.Does w s t) : Sound layout program a t := by
  induction d with
  | goto hw _ hf => exact h.goto hw fun f mem => (hf f mem).within code
  | raise => exact h.goto rfl (by simp [Control.fragments])
  | push hp hy hf hb _ _ ih =>
      exact ih (h.push hy hp (fun f mem => (hf f mem).within code) (List.Subset.trans hb names))
  | bind v hx _ ih => exact ih (h.bind hx v)
  | close hf _ ih => exact ih (h.addClosure (hf.within code))
  | write p v _ ih => exact ih (h.congr rfl (by cases p <;> rfl) rfl rfl)
  | addList _ _ ih | addMap _ _ ih | print _ _ _ ih => exact ih (h.congr rfl rfl rfl rfl)

/-- The end of a call goes back to the activation of the caller, with a value or
without. -/
theorem leave (h : Grounded layout program a w s) {b : Activation} (hb : b ∈ layout)
    (hn : b.nest ≠ []) {rest : List Pending} (hs : layout.Stack b .value rest) {c : Control}
    (hw : c.yields .value) (hc : c.fragments = []) :
    Sound layout program b ({ s with pending := rest }.leave b.env c) :=
  ⟨_, ⟨h.frames, h.closures, hb, hn, rfl, hs⟩, hw, by simp [State.leave, hc]⟩

end Grounded

/-! ## Calls -/

/-- The frame of a call holds the parameters and the locals on entry. -/
theorem mem_names_ofCall {f : Function} {args : List Value} {x : String} :
    x ∈ (Frame.ofCall f args).names ↔ x ∈ f.params ∨ x ∈ locals f.params f.body := by
  have params : ∀ (params : List String) (args : List Value),
      (argumentBindings params args).map Prod.fst = params := by
    intro params args
    fun_induction argumentBindings params args <;> simp_all
  rw [Frame.ofCall, Frame.mem_names_bindAll, List.map_append, params]
  simp [Frame.names, Function.comp_def]

/-- Entering a body makes an activation of it, below the frame that it was closed
over, and binds exactly the names of the body there. -/
theorem sound_enterBody {f : Function} {outer : List Function} {env : Env} (o : Options)
    (hd : layout.Describes program s.frames) (hc : ∀ c ∈ s.heap.closures, layout.Owns c)
    (ha : ⟨outer, env⟩ ∈ layout) (hn : Nest program (f :: outer)) (args : List Value)
    (hs : ∀ {layout' : Layout} {a : Activation}, layout ⊆ layout' →
      layout'.Stack a .flow s.pending) :
    Sound (layout ++ [⟨f :: outer, s.frames.size :: env⟩]) program
      ⟨f :: outer, s.frames.size :: env⟩ (enterBody o s (.ofCall f args) env f.body) := by
  have grows : layout ⊆ layout ++ [⟨f :: outer, s.frames.size :: env⟩] :=
    List.subset_append_left _ _
  have new : (⟨f :: outer, s.frames.size :: env⟩ : Activation) ∈
      layout ++ [⟨f :: outer, s.frames.size :: env⟩] := by simp
  have statement : ∀ {stmt : Stmt}, stmt ∈ f.body →
      (Fragment.stmt stmt).Within (.stmts f.body) := Fragment.within_stmts_of_mem
  have frames : Layout.Describes (layout ++ [⟨f :: outer, s.frames.size :: env⟩]) program
      (enterBody o s (.ofCall f args) env f.body).frames := by
    refine hd.push ha hn size_enterBody (fun id hid => by rw [frame_enterBody hid]) fun x => ?_
    rw [names_enterBody, mem_names_ofCall]
    simp [Function.names, or_assoc]
  have closures : ∀ c ∈ (enterBody o s (.ofCall f args) env f.body).heap.closures,
      Layout.Owns (layout ++ [⟨f :: outer, s.frames.size :: env⟩]) c := by
    intro c hmem
    rcases closures_enterBody hmem with hmem | ⟨g, hg, rfl⟩
    · exact (hc c hmem).mono grows
    · exact ⟨f, outer, new, statement (mem_functionsOf.mp hg)⟩
  rcases enterBody_runs o s (.ofCall f args) env f.body with
    ⟨running, pending⟩ | ⟨rest, last, ends, -, running, pending⟩
  · refine ⟨.flow, ⟨frames, closures, new, by simp, by simp, ?_⟩, by rw [running]; rfl, ?_⟩
    · rw [pending]
      exact hs grows
    · rw [running]
      exact List.forall_mem_map.mpr fun stmt mem => statement mem
  · -- a last expression that is kept lies in the body, too
    have kept : (Fragment.stmt (.expr last)).Within (.stmts f.body) := statement (by simp [ends])
    have trailing : (Fragment.expr last).Within (.stmts f.body) :=
      kept.part (by simp [Fragment.parts])
    refine ⟨.flow, ⟨frames, closures, new, by simp, by simp, ?_⟩, by rw [running]; rfl, ?_⟩
    · rw [pending]
      refine .work (p := .trailing last) rfl ?_ (by simp [Pending.binds]) (hs grows)
      simpa [Pending.fragments, Activation.code] using trailing
    · rw [running]
      exact List.forall_mem_map.mpr fun stmt mem => statement (by simp [ends, mem])

/-- A call makes an activation of the body that the closure was made from, below the
one that the closure was made in. -/
theorem Grounded.call (h : Grounded layout program a .value s) (o : Options) {c : Closure}
    (hc : layout.Owns c) (args : List Value) :
    ∃ layout' b, layout <+: layout' ∧ Sound layout' program b
      (enterBody o { s with pending := .caller s.env :: s.pending, depth := s.depth + 1 }
        (.ofCall c.function args) c.env c.function.body) := by
  obtain ⟨g, outer, hg, hd⟩ := hc
  obtain ⟨_, _, _, -, -, hn, -⟩ := h.frames.of_mem hg
  have stack : ∀ {layout' : Layout} {b : Activation}, layout ⊆ layout' →
      layout'.Stack b .flow (.caller s.env :: s.pending) := by
    intro layout' b hl
    rw [← h.env]
    exact .call (hl h.active) h.body (h.stack.mono hl)
  have called := sound_enterBody o
    (s := { s with pending := .caller s.env :: s.pending, depth := s.depth + 1 })
    h.frames h.closures hg (.function hn hd) args stack
  exact ⟨_, _, List.prefix_append _ _, called⟩

/-- Every step keeps the state sound. Only a call makes a new activation. -/
theorem Sound.advances {r : Run} {t : State} (h : Sound layout program a s)
    (ht : Advances r s t) :
    ∃ layout' b, layout <+: layout' ∧ Sound layout' program b t := by
  have sound := h
  obtain ⟨w, ground, hw, hc⟩ := h
  have same : ∀ {b : Activation} {t : State}, Sound layout program b t →
      ∃ layout' b, layout <+: layout' ∧ Sound layout' program b t :=
    fun ht => ⟨layout, _, List.prefix_rfl, ht⟩
  have stack : ∀ {p : Pending} {rest : List Pending}, s.pending = p :: rest →
      layout.Stack a w (p :: rest) := fun hs => hs ▸ ground.stack
  have below : ∀ {rest : List Pending} {w : Wait}, layout.Stack a w rest →
      Grounded layout program a w { s with pending := rest } :=
    fun hs => ⟨ground.frames, ground.closures, ground.active, ground.body, ground.env, hs⟩
  cases ht with
  | ended | endless => exact same sound
  | begin busy _ comes does =>
      obtain rfl := Control.yields_unique (Control.isUnwinding_eq_false busy) hw comes
      refine same (ground.does hc (fun x hx => ?_) does)
      obtain ⟨f, mem, bound⟩ := List.mem_flatMap.mp hx
      exact (hc f mem).bound_subset bound
  | use _ hs plain does =>
      obtain ⟨-, hf, hb, rest⟩ := (stack hs).of_work plain
      exact same ((below rest).does hf hb does)
  | pass _ hs passes =>
      rcases passes with ⟨unwinding, plain⟩ | misfit
      · obtain ⟨u, hu⟩ := Control.eq_raise unwinding
        obtain ⟨-, -, -, rest⟩ := (stack hs).of_work plain
        exact same ⟨_, below rest, by simp [hu, Control.yields], by simp [hu, Control.fragments]⟩
      · rw [(stack hs).awaits, hw] at misfit
        cases misfit
  | call args callee _ =>
      obtain ⟨name, id, args', hs, found⟩ := callee?_eq_some callee
      obtain rfl : w = .value := by
        rw [hs] at hw
        exact of_decide_eq_true hw
      exact ground.call r.options (ground.closures _ (Array.mem_of_getElem? found)) args
  | overflow => exact same (ground.goto rfl (by simp [Control.fragments]))
  | leave _ hs ends =>
      obtain ⟨-, b, hb, hn, rfl, rest⟩ := (stack hs).of_caller
      obtain ⟨v, rfl⟩ | ⟨unwinding, rfl⟩ := ends
      · exact same (ground.leave hb hn rest rfl rfl)
      · obtain ⟨u, hu⟩ := Control.eq_raise unwinding
        exact same (ground.leave hb hn rest (by simp [hu, Control.yields])
          (by simp [hu, Control.fragments]))

theorem Sound.next (r : Run) (h : Sound layout program a s) :
    ∃ layout' b, layout <+: layout' ∧ Sound layout' program b (s.next r) :=
  h.advances (advances_next r s)

/-- The program runs in an activation of its own, below the builtins. -/
theorem sound_initial (o : Options) (program : List Stmt) :
    Sound [⟨[], [0]⟩, ⟨[.ofProgram program], [1, 0]⟩] program
      ⟨[.ofProgram program], [1, 0]⟩ (.initial o program) := by
  have builtins : Layout.Describes [⟨[], [0]⟩] program #[builtinFrame] := by
    refine ⟨rfl, ⟨rfl, fun x => ?_⟩, fun id a hid ha => ?_⟩
    · simp [Frames.frame, builtinFrame, Frame.names, builtinNames, Function.comp_def]
    · rw [List.getElem?_eq_none (by simpa using Nat.succ_le_of_lt hid)] at ha
      cases ha
  have entered := sound_enterBody (f := .ofProgram program) o
    (s := ⟨.flow .normal, [], [0], 0, #[builtinFrame], {}, "", ""⟩) builtins (by simp)
    (List.mem_singleton.mpr rfl) .program [] (fun _ => .empty)
  exact entered

end State

end ScriptLang
