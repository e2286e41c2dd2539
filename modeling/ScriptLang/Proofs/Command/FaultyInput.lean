import Mathlib
import ScriptLang.Command.Session

/-!
# Faulty inputs

An invocation reads all of its inputs before it compiles the first, and it compiles all
of them before it writes anything. So one input that cannot be read or does not compile
leaves the files as they were, wherever it stands in the list, and what is reported is
the first input with such a fault; a text that cannot be read comes before any text that
does not compile. An invocation that runs its inputs plans nothing but output.
-/

namespace ScriptLang

/-! ## The first fault of a list -/

/-- An element has a fault, and no element in front of it has one. -/
def IsFirstFault {α ε : Type} (Fails : α → ε → Prop) (xs : List α) (x : α) (e : ε) : Prop :=
  ∃ before after, xs = before ++ x :: after ∧ (∀ y ∈ before, ∀ e, ¬ Fails y e) ∧ Fails x e

section

variable {α β ε φ : Type} {Fails : α → ε → Prop} {xs : List α} {x : α} {e : ε}

/-- If any element has a fault, there is a first one. -/
theorem exists_isFirstFault (h : ∃ x ∈ xs, ∃ e, Fails x e) :
    ∃ x e, IsFirstFault Fails xs x e := by
  induction xs with
  | nil =>
      obtain ⟨x, hx, -⟩ := h
      exact absurd hx List.not_mem_nil
  | cons y rest ih =>
      by_cases first : ∃ e, Fails y e
      · obtain ⟨e, he⟩ := first
        exact ⟨y, e, [], rest, rfl, nofun, he⟩
      · have later : ∃ x ∈ rest, ∃ e, Fails x e := by
          obtain ⟨x, hx, e, he⟩ := h
          rcases List.mem_cons.mp hx with rfl | hx
          · exact absurd ⟨e, he⟩ first
          · exact ⟨x, hx, e, he⟩
        obtain ⟨x, e, before, after, rfl, good, he⟩ := ih later
        refine ⟨x, e, y :: before, after, rfl, ?_, he⟩
        exact List.forall_mem_cons.mpr ⟨fun e he => first ⟨e, he⟩, good⟩

/-- A pass over a list stops at the first element that has a fault. -/
theorem mapM_eq_error {f : α → Except φ β} (failure : α → ε → φ)
    (stops : ∀ x e, Fails x e → f x = .error (failure x e))
    (goes : ∀ x ∈ xs, (∀ e, ¬ Fails x e) → ∃ b, f x = .ok b)
    (h : IsFirstFault Fails xs x e) : xs.mapM f = .error (failure x e) := by
  obtain ⟨before, after, rfl, good, he⟩ := h
  induction before with
  | nil =>
      rw [List.nil_append, List.mapM_cons, stops x e he]
      rfl
  | cons y before ih =>
      obtain ⟨first, others⟩ := List.forall_mem_cons.mp good
      obtain ⟨b, hb⟩ := goes y List.mem_cons_self first
      have rest := ih (fun x hx => goes x (List.mem_cons_of_mem y hx)) others
      rw [List.cons_append, List.mapM_cons, hb, rest]
      rfl

/-- A pass over a list without faults comes to a result for each element. -/
theorem mapM_eq_ok {f : α → Except φ β} {g : α → β} (h : ∀ x ∈ xs, f x = .ok (g x)) :
    xs.mapM f = .ok (xs.map g) := by
  induction xs with
  | nil => rfl
  | cons x rest ih =>
      obtain ⟨first, others⟩ := List.forall_mem_cons.mp h
      rw [List.mapM_cons, first, ih others]
      rfl

end

/-! ## Reading and compiling -/

namespace Tree

/-- There is no text to be read at the path. -/
def IsUnreadable (t : Tree) (p : Path) (fault : Fault) : Prop := t.read p = .error fault

/-- The text at the path does not compile. -/
def Refuses (t : Tree) (o : Options) (p : Path) (reason : Diagnostic) : Prop :=
  ∃ text, t.read p = .ok text ∧ compile o p.text (withFinalNewline text) = .error reason

/-- The text at the path as an input. -/
def source (t : Tree) (p : Path) : Source := ⟨p, (t.read p).toOption.getD ""⟩

variable {t : Tree} {o : Options} {inputs : List Path} {p : Path}

theorem source_of_read {text : String} (h : t.read p = .ok text) : t.source p = ⟨p, text⟩ := by
  rw [source, h]
  rfl

/-- Reading stops at the first input that cannot be read. -/
theorem load_of_unreadable {fault : Fault} (h : IsFirstFault t.IsUnreadable inputs p fault) :
    t.load inputs = .error (.reading p fault) := by
  refine mapM_eq_error Failure.reading ?_ ?_ h
  · intro q fault unreadable
    rw [unreadable]
    rfl
  · intro q _ readable
    cases hq : t.read q with
    | error fault => exact absurd hq (readable fault)
    | ok text => exact ⟨⟨q, text⟩, rfl⟩

theorem load_of_readable (h : ∀ p ∈ inputs, ∃ text, t.read p = .ok text) :
    t.load inputs = .ok (inputs.map t.source) := by
  refine mapM_eq_ok fun q hq => ?_
  obtain ⟨text, read⟩ := h q hq
  rw [source_of_read read, read]
  rfl

/-- Compiling stops at the first input that does not compile. -/
theorem compile_of_refuses {reason : Diagnostic}
    (readable : ∀ p ∈ inputs, ∃ text, t.read p = .ok text)
    (h : IsFirstFault (t.Refuses o) inputs p reason) :
    (inputs.map t.source).mapM (Source.compile o) = .error (.compiling p reason) := by
  rw [List.mapM_map]
  refine mapM_eq_error Failure.compiling ?_ ?_ h
  · rintro q reason ⟨text, read, refused⟩
    show Source.compile o (t.source q) = _
    rw [source_of_read read, Source.compile, Source.programText, refused]
    rfl
  · intro q hq accepted
    obtain ⟨text, read⟩ := readable q hq
    show ∃ c, Source.compile o (t.source q) = .ok c
    rw [source_of_read read, Source.compile, Source.programText]
    cases hc : ScriptLang.compile o q.text (withFinalNewline text) with
    | error reason => exact absurd ⟨text, read, hc⟩ (accepted reason)
    | ok c => exact ⟨c, rfl⟩

end Tree

/-! ## Output -/

/-- The effect goes to an output stream and not to a file. -/
def Effect.isOutput : Effect → Bool
  | .print _ | .printError _ => true
  | .makeDirectories _ | .write .. => false

theorem Session.tree_act {s : Session} {effect : Effect} (h : effect.isOutput = true) :
    (s.act effect).1.tree = s.tree := by
  cases effect with
  | print text | printError text => rfl
  | makeDirectories p | write p text => cases h

theorem Session.tree_actAll {s : Session} {effects : List Effect}
    (h : ∀ effect ∈ effects, effect.isOutput = true) : (s.actAll effects).1.tree = s.tree := by
  induction effects generalizing s with
  | nil => rfl
  | cons effect rest ih =>
      obtain ⟨first, others⟩ := List.forall_mem_cons.mp h
      have kept := tree_act (s := s) first
      rw [actAll]
      split
      next s' acted =>
        rw [acted] at kept
        exact (ih others).trans kept
      next s' failure acted =>
        rw [acted] at kept
        exact kept

theorem Session.tree_carryOut {s : Session} {plan : Plan}
    (h : ∀ effect ∈ plan.effects, effect.isOutput = true) : (s.carryOut plan).1.tree = s.tree := by
  have kept := tree_actAll (s := s) h
  rw [carryOut]
  split
  next s' acted =>
    rw [acted] at kept
    exact kept
  next s' failure acted =>
    rw [acted] at kept
    exact kept

/-- Running an input plans output only. -/
theorem Source.isOutput_of_run (o : Options) (steps : Nat) (s : Source) :
    ∀ effect ∈ (s.run o steps).effects, effect.isOutput = true := by
  rw [Source.run]
  split
  · nofun
  · split
    · nofun
    · simp [Effect.isOutput]

theorem Plan.isOutput_of_running (o : Options) (steps : Nat) (sources : List Source) :
    ∀ effect ∈ (Plan.running o steps sources).effects, effect.isOutput = true := by
  induction sources with
  | nil => nofun
  | cons s rest ih =>
      have first := s.isOutput_of_run o steps
      rw [Plan.running]
      split
      next effects failure planned =>
        rw [planned] at first
        exact first
      next effects planned =>
        rw [planned] at first
        exact List.forall_mem_append.mpr ⟨first, ih⟩

/-! ## Invocations -/

namespace Invocation

variable {i : Invocation} {steps : Nat} {t : Tree} {p : Path}

theorem perform_of_unreadable {fault : Fault} (h : IsFirstFault t.IsUnreadable i.inputs p fault) :
    i.perform steps t = ({ tree := t }, some (.reading p fault)) := by
  rw [perform, Tree.load_of_unreadable h]

theorem perform_of_refuses {reason : Diagnostic} (compiles : i.runs = false)
    (readable : ∀ p ∈ i.inputs, ∃ text, t.read p = .ok text)
    (h : IsFirstFault (t.Refuses i.options) i.inputs p reason) :
    i.perform steps t = ({ tree := t }, some (.compiling p reason)) := by
  have planned : i.plan steps (i.inputs.map t.source) = ⟨[], some (.compiling p reason)⟩ := by
    rw [plan, compiles, if_neg Bool.false_ne_true, writing, Tree.compile_of_refuses readable h]
  rw [perform, Tree.load_of_readable readable]
  dsimp only
  rw [planned]
  rfl

theorem tree_perform_of_runs (runs : i.runs = true) : (i.perform steps t).1.tree = t := by
  rw [perform]
  split
  next => rfl
  next sources _ =>
    rw [plan, if_pos runs]
    exact Session.tree_carryOut (Plan.isOutput_of_running i.options steps sources)

end Invocation

/-- An input that cannot be read or does not compile stops the invocation before it changes
a file or prints anything, and the failure is that of the first such input. Where programs
are run, files stay as they are whatever the programs do. An input that cannot be read is
one that is not there or no file: the files of a tree are texts that may be read. -/
theorem faulty_input_changes_nothing (i : Invocation) (steps : Nat) (t : Tree) :
    ((∃ p ∈ i.inputs, ∃ fault, t.IsUnreadable p fault) →
      ∃ p fault, IsFirstFault t.IsUnreadable i.inputs p fault ∧
        i.perform steps t = ({ tree := t }, some (.reading p fault))) ∧
    ((∀ p ∈ i.inputs, ∃ text, t.read p = .ok text) → i.runs = false →
      (∃ p ∈ i.inputs, ∃ reason, t.Refuses i.options p reason) →
        ∃ p reason, IsFirstFault (t.Refuses i.options) i.inputs p reason ∧
          i.perform steps t = ({ tree := t }, some (.compiling p reason))) ∧
    (i.runs = true → (i.perform steps t).1.tree = t) := by
  refine ⟨fun unreadable => ?_, fun readable compiles refuses => ?_,
    Invocation.tree_perform_of_runs⟩
  · obtain ⟨p, fault, first⟩ := exists_isFirstFault unreadable
    exact ⟨p, fault, first, Invocation.perform_of_unreadable first⟩
  · obtain ⟨p, reason, first⟩ := exists_isFirstFault refuses
    exact ⟨p, reason, first, Invocation.perform_of_refuses compiles readable first⟩

/-- Three inputs, of which the second and the third do not compile. -/
def twoRefused : Tree :=
  ⟨[], [(["a"], .file "x = 1"), (["b"], .file "x ="), (["c"], .file "end")]⟩

theorem faulty_input_changes_nothing_twoRefused :
    (∀ p ∈ [⟨"a"⟩, ⟨"b"⟩, ⟨"c"⟩], ∃ text, twoRefused.read p = .ok text) ∧
      (∃ p ∈ [⟨"a"⟩, ⟨"b"⟩, ⟨"c"⟩], ∃ reason, twoRefused.Refuses {} p reason) ∧
      (∃ p reason, IsFirstFault (twoRefused.Refuses {}) [⟨"a"⟩, ⟨"b"⟩, ⟨"c"⟩] p reason ∧
        (⟨[⟨"a"⟩, ⟨"b"⟩, ⟨"c"⟩], none, {}, false, false⟩ : Invocation).perform 0 twoRefused =
          ({ tree := twoRefused }, some (.compiling p reason))) ∧
      (∃ p fault, IsFirstFault twoRefused.IsUnreadable [⟨"c"⟩, ⟨"d"⟩] p fault ∧
        (⟨[⟨"c"⟩, ⟨"d"⟩], none, {}, false, false⟩ : Invocation).perform 0 twoRefused =
          ({ tree := twoRefused }, some (.reading p fault))) ∧
      ((⟨[⟨"a"⟩, ⟨"c"⟩], none, {}, false, true⟩ : Invocation).perform 100 twoRefused).1.tree =
        twoRefused := by
  have readable : ∀ p ∈ [⟨"a"⟩, ⟨"b"⟩, ⟨"c"⟩], ∃ text, twoRefused.read p = .ok text := by
    simp only [List.forall_mem_cons]
    exact ⟨⟨"x = 1", rfl⟩, ⟨"x =", rfl⟩, ⟨"end", rfl⟩, List.forall_mem_nil _⟩
  have refuses : ∃ p ∈ [⟨"a"⟩, ⟨"b"⟩, ⟨"c"⟩], ∃ reason, twoRefused.Refuses {} p reason := by
    have refused : parse {} (withFinalNewline "end") =
        .error ⟨1, "end", .expected .statement⟩ := by cbv
    refine ⟨⟨"c"⟩, by simp, ⟨1, "end", .expected .statement⟩, "end", rfl, ?_⟩
    rw [compile, refused]
    rfl
  have unreadable : ∃ p ∈ [⟨"c"⟩, ⟨"d"⟩], ∃ fault, twoRefused.IsUnreadable p fault :=
    ⟨⟨"d"⟩, by simp, .missing, rfl⟩
  exact ⟨readable, refuses,
    (faulty_input_changes_nothing ⟨[⟨"a"⟩, ⟨"b"⟩, ⟨"c"⟩], none, {}, false, false⟩ 0
      twoRefused).2.1 readable rfl refuses,
    (faulty_input_changes_nothing ⟨[⟨"c"⟩, ⟨"d"⟩], none, {}, false, false⟩ 0
      twoRefused).1 unreadable,
    (faulty_input_changes_nothing ⟨[⟨"a"⟩, ⟨"c"⟩], none, {}, false, true⟩ 100
      twoRefused).2.2 rfl⟩

end ScriptLang
