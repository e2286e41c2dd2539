import Mathlib
import ScriptLang.Proofs.Machine.Resolution
import ScriptLang.Proofs.Target.Correspondence

/-!
# Where the variables of emitted code are

A variable of emitted code is declared by the emitted function of the body in whose
activation a run finds it. The one exception are the own names of function expressions:
inside a function of a nested block that does not bind its own name, the emitted name
means the function expression, and a run finds the variable of a body further outwards.
-/

namespace ScriptLang

open Target

/-- Going outwards, a function of a nested block with the name is met before any body
that binds the name. -/
def isCaptured : List Body → String → Bool
  | [], _ => false
  | b :: outer, x =>
    !b.function.names.contains x && (b.nested && b.function.name == x || isCaptured outer x)

namespace Target

variable {chain : List Body} {x : String}

theorem mem_declared_level {b : Body} : mangle x ∈ b.level.declared ↔ x ∈ b.function.names :=
  mem_map_mangle

theorem own_level {b : Body} :
    b.level.own = some (mangle x) ↔ b.nested = true ∧ b.function.name = x := by
  cases hb : b.nested with
  | false => simp [Body.level, hb]
  | true => simpa [Body.level, hb] using ⟨eq_of_mangle_eq, congrArg mangle⟩

/-- A name is declared by the emitted function of the innermost body that binds it. -/
theorem resolve_of_not_captured (free : isCaptured chain x = false) :
    resolve (chain.map Body.level) (mangle x) =
      ((binder? (chain.map Body.function) x).filter (· < chain.length)).map .declared := by
  induction chain with
  | nil =>
      simp only [List.map_nil, resolve, binder?]
      split <;> rfl
  | cons b outer ih =>
      by_cases bound : x ∈ b.function.names
      · simp [resolve, binder?, mem_declared_level, bound, Option.filter]
      · have other : ¬(b.nested = true ∧ b.function.name = x) ∧ isCaptured outer x = false := by
          simpa [isCaptured, bound, not_and] using free
        rw [List.map_cons, List.map_cons, resolve, binder?,
          if_neg (mem_declared_level.not.mpr bound), if_neg (own_level.not.mpr other.1),
          if_neg bound, ih other.2]
        cases binder? (outer.map Body.function) x with
        | none => rfl
        | some k => by_cases inside : k < outer.length <;> simp [Option.filter, inside, Site.inner]

/-- A captured name means a function expression. -/
theorem resolve_of_captured (captured : isCaptured chain x = true) :
    ∃ k, resolve (chain.map Body.level) (mangle x) = some (.own k) := by
  induction chain with
  | nil => exact Bool.noConfusion captured
  | cons b outer ih =>
      have notHere : x ∉ b.function.names ∧
          (b.nested = true ∧ b.function.name = x ∨ isCaptured outer x = true) := by
        simpa [isCaptured] using captured
      rw [List.map_cons, resolve, if_neg (mem_declared_level.not.mpr notHere.1)]
      by_cases here : b.nested = true ∧ b.function.name = x
      · rw [if_pos (own_level.mpr here)]
        exact ⟨0, rfl⟩
      · obtain ⟨k, hk⟩ := ih (notHere.2.resolve_left here)
        rw [if_neg (own_level.not.mpr here), hk]
        exact ⟨k + 1, rfl⟩

end Target

/-- A run finds a name in the activation of the body whose emitted function declares it,
and outside the program if the emitted name is declared nowhere. -/
def State.FindsAt (s : State) (layout : Layout) (nest : List Function) (x : String) :
    Option Site → Prop
  | some (.declared k) => ∃ id, layout[id]? = some ⟨nest.drop k, s.env.drop k⟩ ∧
      s.frames.home? s.env x = some id
  | some (.own _) => False
  | none => ∀ id, s.frames.home? s.env x = some id → ∃ env, layout[id]? = some ⟨[], env⟩

/-- A name that is not captured is found where the emitted name is declared. -/
theorem State.Sound.findsAt {layout : Layout} {program : List Stmt} {a : Activation}
    {s : State} (sound : s.Sound layout program a) {chain : List Body}
    (active : a.nest = chain.map Body.function) {x : String} (free : isCaptured chain x = false) :
    s.FindsAt layout a.nest x (resolve (chain.map Body.level) (mangle x)) := by
  have found := sound.home? x
  have length : a.nest.length = chain.length := by rw [active, List.length_map]
  rw [resolve_of_not_captured free, ← active]
  cases hk : binder? a.nest x with
  | none =>
      rw [hk] at found
      intro id here
      rw [found] at here
      cases here
  | some k =>
      rw [hk] at found
      by_cases inside : k < chain.length
      · simpa [Option.filter, inside, State.FindsAt] using found
      · obtain ⟨id, hl, hid⟩ := found
        have outside : a.nest.drop k = [] := List.drop_eq_nil_of_le (by omega)
        have nowhere : ((some k).filter (· < chain.length)).map Site.declared = none := by
          simp [Option.filter, inside]
        rw [nowhere]
        intro id' here
        obtain rfl := Option.some.inj (hid.symm.trans here)
        exact ⟨_, outside ▸ hl⟩

/-- A captured name is found elsewhere, since its function expression is no body's
declaration. -/
theorem State.Sound.findsAt_iff {layout : Layout} {program : List Stmt} {a : Activation}
    {s : State} (sound : s.Sound layout program a) {chain : List Body}
    (active : a.nest = chain.map Body.function) (x : String) :
    s.FindsAt layout a.nest x (resolve (chain.map Body.level) (mangle x)) ↔
      isCaptured chain x = false := by
  constructor
  · intro finds
    rw [← Bool.not_eq_true]
    intro captured
    obtain ⟨k, own⟩ := resolve_of_captured captured
    rw [own] at finds
    exact finds
  · exact sound.findsAt active

/-- An identifier of the program is a variable of the emitted code that no parameter of
the compiler's own hides. A run finds it in the activation of the body whose emitted
function declares it, and what no body binds is declared nowhere, exactly unless the own
name of a function expression is in the way. -/
theorem emitted_scoping (r : Run) (file : String) (program : List Stmt) {chain : List Body}
    {x : String} (occurs : (chain, x) ∈ occurrencesOf program) :
    (chain.map Body.level, mangle x) ∈
        usesOf (emitProgram ⟨file, r.options.implicitReturn⟩ program) ∧
      mangle x ≠ updatedName ∧ mangle x ≠ caughtName ∧
      (∀ n, ∃ layout a, (State.after r program n).Sound layout program a) ∧
      ∀ layout a s, State.Sound layout program a s →
        a.nest = chain.map Body.function →
          (s.FindsAt layout a.nest x (resolve (chain.map Body.level) (mangle x)) ↔
            isCaptured chain x = false) := by
  refine ⟨?_, mangle_ne rfl (by decide), mangle_ne rfl (by decide),
    State.exists_sound r program, fun _ _ _ sound active => sound.findsAt_iff active x⟩
  have emitted := usesOf_emitProgram ⟨file, r.options.implicitReturn⟩ program
  exact emitted.symm.subset (List.mem_map_of_mem occurs)

/-- A function of a nested block that reads a variable of the program. -/
def adder : Function :=
  ⟨"add", ["step"], [.ret (.binary .add (.ident "total") (.ident "step"))]⟩

/-- The program that defines it. -/
def adding : List Stmt :=
  [.cond (.ident "true") [adder.definition] .none,
    .expr (.assign none (.ident "total") (.number "1"))]

theorem emitted_scoping_adding :
    ([⟨adder, true⟩, .ofProgram adding], "total") ∈ occurrencesOf adding ∧
      isCaptured [⟨adder, true⟩, .ofProgram adding] "total" = false ∧
      resolve [(⟨adder, true⟩ : Body).level, (Body.ofProgram adding).level] (mangle "total") =
        some (.declared 1) ∧
      ∀ layout a s, State.Sound layout adding a s → a.nest = [adder, .ofProgram adding] →
        s.FindsAt layout a.nest "total" (some (.declared 1)) := by
  have occurs : ([⟨adder, true⟩, .ofProgram adding], "total") ∈ occurrencesOf adding := by
    simp [adding, adder, Function.definition, occurrencesOf, occurrencesIn, Stmt.occurrences,
      standing, Expr.names]
  have free : isCaptured [⟨adder, true⟩, .ofProgram adding] "total" = false := by decide
  have site : resolve [(⟨adder, true⟩ : Body).level, (Body.ofProgram adding).level]
      (mangle "total") = some (.declared 1) := by decide
  obtain ⟨-, -, -, -, finds⟩ :=
    emitted_scoping { file := "a", options := {}, maxDepth := 1 } "a" adding occurs
  exact ⟨occurs, free, site, fun layout a s sound active =>
    site ▸ (finds layout a s sound active).mpr free⟩

/-- A function of a nested block that returns what its name means. -/
def returningItself : Function := ⟨"f", [], [.ret (.ident "f")]⟩

/-- The program that calls the function after its variable has another value. -/
def reassigning : List Stmt :=
  [.cond (.ident "true")
      [returningItself.definition, .expr (.assign none (.ident "g") (.ident "f")),
        .expr (.assign none (.ident "f") (.number "1"))] .none,
    .expr (.call (.ident "print") [.call (.ident "g") []])]

/-- The emitted name means the function, and the run finds the variable of the program. -/
theorem captured_in_reassigning :
    parse {} "if true\n  fn f()\n    return f\n  end\n  g = f\n  f = 1\nend\nprint(g())\n" =
        .ok reassigning ∧
      ([⟨returningItself, true⟩, .ofProgram reassigning], "f") ∈ occurrencesOf reassigning ∧
      resolve [(⟨returningItself, true⟩ : Body).level, (Body.ofProgram reassigning).level]
        (mangle "f") = some (.own 0) ∧
      binder? [returningItself, .ofProgram reassigning] "f" = some 1 ∧
      interpret ⟨"a", {}, 10⟩ 100 reassigning = some ⟨"1\n", "", none⟩ := by
  refine ⟨by cbv, ?_, by decide, by decide, by decide +kernel⟩
  simp [reassigning, returningItself, Function.definition, occurrencesOf, occurrencesIn,
    Stmt.occurrences, standing, Expr.names]

end ScriptLang
