import ScriptLang.Proofs.Machine.CallDepth

/-!
# What the limit on calls is for

The limit on the depth is read in one place: where a closure is called, to see whether
there is room for the call. A step that finds room under one limit is the same step
under every higher one. So two runs of a program that differ in the limit alone go
through the same states until a call finds no room under the lower limit, and a run in
which none does leaves behind the same texts and the same error under both.
-/

namespace ScriptLang

/-- The run with another limit on the depth. -/
def Run.allowing (r : Run) (limit : Nat) : Run := { r with maxDepth := limit }

namespace State

variable {r : Run} {limit : Nat}

/-- There is room for what the next step calls. -/
def HasRoom (r : Run) (s : State) : Prop := s.callsClosure = true → s.depth < r.maxDepth

theorem callClosure_allowing (le : r.maxDepth ≤ limit) {s : State} (room : s.depth < r.maxDepth)
    (c : Closure) (args : List Value) :
    callClosure (r.allowing limit) s c args = callClosure r s c args := by
  have below : ¬ r.maxDepth ≤ s.depth := Nat.not_le_of_lt room
  have belowLimit : ¬ (r.allowing limit).maxDepth ≤ s.depth :=
    Nat.not_le_of_lt (Nat.lt_of_lt_of_le room le)
  rw [callClosure, callClosure, if_neg below, if_neg belowLimit]
  rfl

theorem apply_allowing (le : r.maxDepth ≤ limit) {s : State} {name : Option String} {f : Value}
    {args : List Value} (hs : s.control = .apply name f args) (room : s.HasRoom r) :
    apply (r.allowing limit) s name f args = apply r s name f args := by
  cases f with
  | closure id =>
      simp only [apply]
      split
      next c found =>
        apply callClosure_allowing le
        apply room
        rw [callsClosure, callee?, hs]
        exact Option.isSome_of_mem found
      next => rfl
  | _ => rfl

/-- Work that gets its value never looks at the limit. -/
theorem resume_allowing (r : Run) (limit : Nat) (s : State) (v : Value) (p : Pending) :
    resume (r.allowing limit) s v p = resume r s v p := by
  cases p <;> rfl

/-- A step that finds room under one limit is the same under every higher one. -/
theorem next_allowing (le : r.maxDepth ≤ limit) {s : State} (room : s.HasRoom r) :
    s.next (r.allowing limit) = s.next r := by
  cases hs : s.control with
  | apply name f args =>
      rw [next, next, hs]
      exact apply_allowing le hs room
  | value v =>
      simp only [next, hs]
      split
      · rfl
      · exact resume_allowing ..
  | _ => simp only [next, hs]

/-- From any state of a run, the two runs end in the same state if there is room for every
call on the way. -/
theorem runFor_allowing (le : r.maxDepth ≤ limit) {program : List Stmt} {count n : Nat}
    (room : ∀ k, n ≤ k → k < n + count → (after r program k).HasRoom r) :
    runFor (r.allowing limit) count (after r program n) =
      runFor r count (after r program n) := by
  induction count generalizing n with
  | zero => rfl
  | succ count ih =>
      have here := room n (Nat.le_refl n) (Nat.lt_add_of_pos_right (Nat.succ_pos count))
      have later : ∀ k, n + 1 ≤ k → k < n + 1 + count → (after r program k).HasRoom r := by
        intro k hk hkc
        apply room k
        · exact Nat.le_of_succ_le hk
        · omega
      rw [runFor, runFor, next_allowing le here]
      split
      · rfl
      · exact ih later

/-- A call that is made short of the limit finds room. -/
theorem hasRoom_after {program : List Stmt} {k : Nat}
    (h : (after r program k).callsClosure = true → (after r program k).depth ≠ r.maxDepth) :
    (after r program k).HasRoom r :=
  fun calls => Nat.lt_of_le_of_ne (depth_le r program k) (h calls)

end State

/-- A limit that no call runs into is of no account: under every higher limit, the run
of the program ends with the same texts and the same error. -/
theorem interpret_allowing {r : Run} {limit steps : Nat} {program : List Stmt} {o : Outcome}
    (le : r.maxDepth ≤ limit) (ends : r.interpret steps program = some o)
    (room : ∀ k < steps, (State.after r program k).callsClosure = true →
      (State.after r program k).depth ≠ r.maxDepth) :
    (r.allowing limit).interpret steps program = some o := by
  have same : (State.initial r.options program).runFor (r.allowing limit) steps =
      (State.initial r.options program).runFor r steps := by
    apply State.runFor_allowing (n := 0) le
    intro k _ hk
    rw [Nat.zero_add] at hk
    exact State.hasRoom_after (room k hk)
  have options : (r.allowing limit).options = r.options := rfl
  rw [Run.interpret, options, same]
  exact ends

/-- One function calls another, so calls nest two deep. -/
def nestedCalls : List Stmt :=
  [.func "g" [] [.throw (.str "'deep'")],
    .func "f" [] [.attempt [.expr (.call (.ident "g") [])] "e" [.ret (.ident "e")]],
    .expr (.call (.ident "print") [.call (.ident "f") []])]

/-- The run of this program under a limit. -/
def nestedCallsRun (limit : Nat) : Run := { file := "a", options := {}, maxDepth := limit }

/-- A limit of two is enough for them, so a limit of five changes nothing. -/
theorem interpret_nestedCalls :
    (nestedCallsRun 2).interpret 40 nestedCalls = some ⟨"deep\n", "", none⟩ ∧
      (∀ k < 40, (State.after (nestedCallsRun 2) nestedCalls k).callsClosure = true →
        (State.after (nestedCallsRun 2) nestedCalls k).depth ≠ 2) ∧
      (nestedCallsRun 5).interpret 40 nestedCalls = some ⟨"deep\n", "", none⟩ := by
  have ends : (nestedCallsRun 2).interpret 40 nestedCalls = some ⟨"deep\n", "", none⟩ := by
    decide +kernel
  have room : ∀ k < 40, (State.after (nestedCallsRun 2) nestedCalls k).callsClosure = true →
      (State.after (nestedCallsRun 2) nestedCalls k).depth ≠ 2 := by
    decide +kernel
  have le : (nestedCallsRun 2).maxDepth ≤ 5 := by decide
  exact ⟨ends, room, interpret_allowing le ends room⟩

/-- A limit of one is not, and there the run ends in another way. -/
example : (nestedCallsRun 1).interpret 40 nestedCalls =
    some ⟨"Maximum call stack size exceeded\n", "", none⟩ := by
  decide +kernel

end ScriptLang
