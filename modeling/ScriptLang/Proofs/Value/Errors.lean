import ScriptLang.Builtin.Call

/-!
# Errors of operations on values

An operation on values fails because of the values that it was given. It never reports
an undefined variable, a failed assertion, calls that are nested too deep or a number
literal without a value: these errors have their places in the steps of a run.
-/

namespace ScriptLang

/-- The error is about the values of an operation. -/
def RuntimeError.isAboutValues : RuntimeError → Bool
  | misuse .readNumber _ => false
  | misuse .. | notCallable _ | zeroStep => true
  | _ => false

/-- If the operation fails, it is for the values that it was given. -/
def FailsOnValues {α : Type} (result : Except RuntimeError α) : Prop :=
  ∀ e, result = .error e → e.isAboutValues = true

namespace FailsOnValues

variable {α β : Type}

theorem ok (a : α) : FailsOnValues (.ok a) := fun _ h => nomatch h

theorem error {e : RuntimeError} (h : e.isAboutValues = true) :
    FailsOnValues (.error e : Except RuntimeError α) := by
  rintro _ ⟨⟩
  exact h

theorem map {result : Except RuntimeError α} (h : FailsOnValues result) (f : α → β) :
    FailsOnValues (result.map f) := by
  cases result with
  | ok a => exact ok _
  | error e => exact error (h e rfl)

theorem bind {result : Except RuntimeError α} {f : α → Except RuntimeError β}
    (h : FailsOnValues result) (hf : ∀ a, FailsOnValues (f a)) :
    FailsOnValues (result >>= f) := by
  cases result with
  | ok a => exact hf a
  | error e => exact error (h e rfl)

end FailsOnValues

namespace Heap

variable (h : Heap)

theorem failsOnValues_get (container key : Value) : FailsOnValues (h.get container key) := by
  cases container <;> first | exact .ok _ | exact .error rfl

theorem failsOnValues_place (container key : Value) : FailsOnValues (h.place container key) := by
  cases container with
  | list id =>
      simp only [place]
      split
      · exact .ok _
      · exact .error rfl
  | map id => exact .ok _
  | _ => exact .error rfl

theorem failsOnValues_sliceBounds (start stop : Value) (size : Nat) :
    FailsOnValues (start.sliceBounds stop size) := by
  have bound : ∀ (v : Value) (n : Nat), FailsOnValues (v.sliceBound size n) := by
    intro v n
    cases v with
    | null => exact .ok _
    | num x =>
        simp only [Value.sliceBound]
        split <;> exact .ok _
    | _ => exact .error rfl
  exact .bind (bound start 0) fun low => .bind (bound stop size) fun high => .ok _

theorem failsOnValues_slice (container start stop : Value) :
    FailsOnValues (h.slice container start stop) := by
  cases container with
  | str text => exact .bind (failsOnValues_sliceBounds _ _ _) fun _ => .ok _
  | list id => exact .bind (failsOnValues_sliceBounds _ _ _) fun _ => .ok _
  | _ => exact .error rfl

theorem failsOnValues_visited (container : Value) : FailsOnValues (h.visited container) := by
  cases container <;> first | exact .ok _ | exact .error rfl

theorem failsOnValues_visitedEntries (container : Value) :
    FailsOnValues (h.visitedEntries container) := by
  cases container with
  | map id => exact .ok _
  | _ => exact .bind (failsOnValues_visited h _) fun _ => .ok _

end Heap

namespace Builtin

theorem failsOnValues_evaluate (b : Builtin) (args : List Value) (h : Heap) :
    FailsOnValues (b.evaluate args h) := by
  have base : ∀ x, FailsOnValues (Builtin.base x) := by
    intro x
    unfold Builtin.base
    split
    · split
      · exact .ok _
      · exact .error rfl
    · exact .error rfl
  cases b with
  | len =>
      refine .bind ?_ fun _ => .ok _
      unfold Heap.length
      split <;> first | exact .ok _ | exact .error rfl
  | chr =>
      change FailsOnValues (character _)
      unfold character
      split
      · split
        · exact .ok _
        · exact .error rfl
      · exact .error rfl
  | strbase => exact .bind (base _) fun _ => .ok _
  | numbase =>
      refine .bind (base _) fun n => ?_
      split
      · exact .ok _
      · exact .error rfl
  | print | eprint | range => exact .error rfl
  | _ => exact .ok _

theorem failsOnValues_progression (args : List Float) : FailsOnValues (progression args) := by
  unfold progression
  split
  · exact .ok _
  · exact .ok _
  · split
    · exact .error rfl
    · exact .ok _
  · exact .error rfl

theorem isAboutValues_of_call {b : Builtin} {args : List Value} {h : Heap} {e : RuntimeError}
    (failed : b.call args h = .failed e) : e.isAboutValues = true := by
  unfold call at failed
  split at failed
  · unfold listRange at failed
    split at failed
    next e' he =>
      obtain rfl := Answer.failed.inj failed
      exact failsOnValues_progression _ _ he
    next p _ => cases hp : p.items? <;> simp [hp] at failed
  · cases he : b.evaluate args h with
    | ok v => simp [he, Answer.of] at failed
    | error e' =>
        rw [he] at failed
        obtain rfl := Answer.failed.inj failed
        exact failsOnValues_evaluate b args h _ he

end Builtin

end ScriptLang
