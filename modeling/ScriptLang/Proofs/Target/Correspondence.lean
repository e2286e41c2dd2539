import ScriptLang.Proofs.Machine.Activation
import ScriptLang.Proofs.Target.ExplicitReturn
import ScriptLang.Proofs.Target.Scoping

/-!
# The variables of emitted code

The variables of emitted code are the identifiers of the program under their emitted
names, each inside the emitted functions of the bodies around it. Only their order may
be another one, since the functions of a nested block are emitted first.

`Renders` says this of some items and of what they declare; it goes through emission
by one rule for each way of putting emissions together.
-/

namespace ScriptLang.Target

/-! ## Names -/

theorem isUnderscored_append (name : String) : isUnderscored (name ++ "_") = true := by
  simp [isUnderscored]

/-- Names that differ stay different. -/
theorem eq_of_mangle_eq {x y : String} (h : mangle x = mangle y) : x = y := by
  unfold mangle at h
  split at h
  next =>
    split at h
    next => exact String.toList_inj.mp (by simpa using congrArg String.toList h)
    next kept =>
      rw [← h, isUnderscored_append] at kept
      simp at kept
  next kept =>
    split at h
    next =>
      rw [h, isUnderscored_append] at kept
      simp at kept
    next => exact h

/-- An emitted name that begins with an underscore ends with one. -/
theorem getLast?_mangle {x : String} (h : (mangle x).toList.head? = some '_') :
    (mangle x).toList.getLast? = some '_' := by
  unfold mangle at h ⊢
  split
  next => simp
  next kept =>
    rw [if_neg kept] at h
    simp [isUnderscored, h] at kept

/-- So no variable has the name of a parameter of the compiler's own. -/
theorem mangle_ne {x name : String} (first : name.toList.head? = some '_')
    (last : name.toList.getLast? ≠ some '_') : mangle x ≠ name := by
  rintro rfl
  exact last (getLast?_mangle first)

theorem mem_map_mangle {x : String} {names : List String} :
    mangle x ∈ names.map mangle ↔ x ∈ names := by
  constructor
  · intro h
    obtain ⟨y, hy, same⟩ := List.mem_map.mp h
    exact eq_of_mangle_eq same ▸ hy
  · exact List.mem_map_of_mem

/-! ## Expressions -/

@[simp] theorem vars_asOperand (e : Expr) (c : Code) : (e.asOperand c).vars = c.vars := by
  rw [Expr.asOperand]
  split <;> rfl

theorem vars_binaryCode (op : BinaryOp) (l r l' r' : Code) (hl : l'.vars = l.vars)
    (hr : r'.vars = r.vars) : (binaryCode op l r l' r').vars = l.vars ++ r.vars := by
  cases op <;> simp [binaryCode, Code.vars, varsOf, hl, hr]

mutual

/-- The variables of an emitted expression are its identifiers. -/
theorem vars_code : ∀ e : Expr, (code e).vars = e.names.map mangle
  | .ident _ | .number _ | .str _ | .omitted => rfl
  | .unary _ operand => by simp [code, Code.vars, Expr.names, vars_code operand]
  | .binary op lhs rhs => by
      rw [code, vars_binaryCode op _ _ _ _ (vars_asOperand ..) (vars_asOperand ..), vars_code lhs,
        vars_code rhs, Expr.names, List.map_append]
  | .assign op target value => by
      have targetVars := vars_code target
      have valueVars := vars_code value
      rw [Expr.names, List.map_append, ← targetVars, ← valueVars]
      cases target <;> cases op <;> simp [code, Code.vars, varsOf, vars_asOperand]
  | .call callee args => by
      simp [code, Code.vars, Expr.names, vars_code callee, varsOf_codes args]
  | .index target index => by
      simp [code, Code.vars, varsOf, Expr.names, vars_code target, vars_code index]
  | .slice target start stop => by
      simp [code, Code.vars, varsOf, Expr.names, vars_code target, vars_code start, vars_code stop]
  | .map entries => by simp [code, Code.vars, Expr.names, varsOfEntries_entryCodes entries]
  | .list items => by simp [code, Code.vars, Expr.names, varsOf_codes items]

theorem varsOf_codes : ∀ es : List Expr, varsOf (codes es) = (namesInExprs es).map mangle
  | [] => rfl
  | e :: rest => by simp [codes, varsOf, namesInExprs, vars_code e, varsOf_codes rest]

theorem varsOfEntries_entryCodes : ∀ entries : List (Expr × Expr),
    varsOfEntries (entryCodes entries) = (namesInEntries entries).map mangle
  | [] => rfl
  | (key, value) :: rest => by
      simp [entryCodes, varsOfEntries, namesInEntries, vars_code key, vars_code value,
        varsOfEntries_entryCodes rest]

end

/-! ## Levels -/

end Target

/-- The emitted function of a body. -/
def Body.level (b : Body) : Target.Level where
  declared := b.function.names.map Target.mangle
  own := if b.nested then some (Target.mangle b.function.name) else none

/-- An identifier as a variable of emitted code. -/
def Occurrence.emitted (o : Occurrence) : Target.Use := (o.1.map Body.level, Target.mangle o.2)

namespace Target

/-- What is declared are the names, and the variables are the identifiers, up to order. -/
structure Mirrors (declared : List String) (uses : List Use) (names : List String)
    (os : List Occurrence) : Prop where
  declared_eq : declared = names.map mangle
  uses_perm : uses.Perm (os.map Occurrence.emitted)

namespace Mirrors

variable {chain : List Body} {declared declared' names names' : List String}
  {uses uses' : List Use} {os os' : List Occurrence}

theorem nil : Mirrors [] [] [] [] := ⟨rfl, .nil⟩

theorem append (h : Mirrors declared uses names os) (h' : Mirrors declared' uses' names' os') :
    Mirrors (declared ++ declared') (uses ++ uses') (names ++ names') (os ++ os') where
  declared_eq := by rw [h.declared_eq, h'.declared_eq, List.map_append]
  uses_perm := by
    rw [List.map_append]
    exact h.uses_perm.append h'.uses_perm

theorem perm (h : Mirrors declared uses names os) (same : os.Perm os') :
    Mirrors declared uses names os' :=
  ⟨h.declared_eq, h.uses_perm.trans (same.map _)⟩

theorem standing (chain : List Body) (names : List String) :
    Mirrors [] (standing (chain.map Body.level) (names.map mangle)) [] (standing chain names) where
  declared_eq := rfl
  uses_perm := by simp [ScriptLang.standing, Occurrence.emitted, Function.comp_def]

theorem expr (chain : List Body) (e : Expr) :
    Mirrors [] (ScriptLang.standing (chain.map Body.level) (code e).vars) []
      (ScriptLang.standing chain e.names) := by
  rw [vars_code]
  exact standing chain e.names

end Mirrors

/-- The items declare the names, and their variables are the identifiers. -/
def Renders (chain : List Body) (names : List String) (os : List Occurrence)
    (items : List Item) : Prop :=
  Mirrors (declaredIn items) (usesIn (chain.map Body.level) items) names os

namespace Renders

variable {chain : List Body} {names names' : List String} {os os' : List Occurrence}
  {items items' : List Item}

theorem append (h : Renders chain names os items) (h' : Renders chain names' os' items') :
    Renders chain (names ++ names') (os ++ os') (items ++ items') := by
  rw [Renders, declaredIn_append, usesIn_append]
  exact Mirrors.append h h'

theorem one {item : Item} (h : Mirrors item.declared (item.uses (chain.map Body.level)) names os) :
    Renders chain names os [item] := by
  simpa [Renders, declaredIn, usesIn] using h

end Renders

/-! ## Emission -/

/-- Whatever the number of loops written so far, the emission comes to something of
the kind. -/
def Emits {α : Type} (x : Emission α) (P : α → Prop) : Prop := ∀ n, P (x.run n).1

namespace Emits

variable {α β : Type} {x : Emission α} {f : α → Emission β} {P : α → Prop} {Q : β → Prop}

theorem pure {a : α} (h : P a) : Emits (pure a) P := fun _ => h

theorem bind (hx : Emits x P) (hf : ∀ a, P a → Emits (f a) Q) : Emits (x >>= f) Q :=
  fun n => hf _ (hx n) _

theorem newLabel {f : Nat → Emission β} (hf : ∀ label, Emits (f label) Q) :
    Emits (Target.newLabel >>= f) Q :=
  fun _ => hf _ _

end Emits

/-! ## Functions -/

section

variable {chain : List Body} {name : String} {params : List String} {body : List Stmt}

theorem declaredIn_prologue (params : List String) (body : List Stmt) :
    declaredIn (prologue params body) = (locals params body).map mangle := by
  have guards (names : List String) : declaredIn (names.map fun p => .guard (mangle p)) = [] := by
    induction names with
    | nil => rfl
    | cons p rest ih => simpa [declaredIn, Item.declared] using ih
  have lets (names : List String) :
      declaredIn (names.map fun x => .declare (mangle x)) = names.map mangle := by
    induction names with
    | nil => rfl
    | cons x rest ih => simpa [declaredIn, Item.declared] using ih
  rw [prologue, declaredIn_append, guards, lets, List.nil_append]

theorem usesIn_prologue (levels : List Level) (params : List String) (body : List Stmt) :
    usesIn levels (prologue params body) = [] := by
  have own (items : List Item) (each : ∀ item ∈ items, item.uses levels = []) :
      usesIn levels items = [] := by
    induction items with
    | nil => rfl
    | cons item rest ih =>
        rw [usesIn, each item List.mem_cons_self, List.nil_append]
        exact ih fun item hitem => each item (List.mem_cons_of_mem _ hitem)
  refine own _ fun item hitem => ?_
  simp only [prologue, List.mem_append, List.mem_map] at hitem
  rcases hitem with ⟨p, -, rfl⟩ | ⟨x, -, rfl⟩ <;> rfl

/-- An emitted function body declares what the body binds. -/
theorem level_eq {nested : Bool} {items : List Item}
    (h : Renders (⟨⟨name, params, body⟩, nested⟩ :: chain) ((functionsOf body).map Function.name)
      (occurrencesIn false (⟨⟨name, params, body⟩, nested⟩ :: chain) body) items) :
    (⟨params.map mangle ++ declaredIn (prologue params body ++ items),
      if nested then some (mangle name) else none⟩ : Level) =
        (⟨⟨name, params, body⟩, nested⟩ : Body).level := by
  rw [declaredIn_append, declaredIn_prologue, h.declared_eq]
  simp [Body.level, Function.names]

theorem usesIn_body {nested : Bool} {items : List Item}
    (h : Renders (⟨⟨name, params, body⟩, nested⟩ :: chain) ((functionsOf body).map Function.name)
      (occurrencesIn false (⟨⟨name, params, body⟩, nested⟩ :: chain) body) items) :
    (usesIn (⟨params.map mangle ++ declaredIn (prologue params body ++ items),
        if nested then some (mangle name) else none⟩ :: chain.map Body.level)
      (prologue params body ++ items)).Perm
        ((occurrencesIn false (⟨⟨name, params, body⟩, nested⟩ :: chain) body).map
          Occurrence.emitted) := by
  rw [level_eq h, usesIn_append, usesIn_prologue, List.nil_append]
  exact h.uses_perm

/-- A function at the top of a body is a declaration. -/
theorem Renders.function {items : List Item}
    (h : Renders (⟨⟨name, params, body⟩, false⟩ :: chain) ((functionsOf body).map Function.name)
      (occurrencesIn false (⟨⟨name, params, body⟩, false⟩ :: chain) body) items) :
    Renders chain [name] ((Stmt.func name params body).occurrences false chain)
      [.function (mangle name) (params.map mangle) (prologue params body ++ items)] := by
  refine .one ⟨rfl, ?_⟩
  simpa [Item.uses, Stmt.occurrences, standing] using usesIn_body h

/-- A function of a nested block is assigned to its variable. -/
theorem Renders.assignFunction {items : List Item}
    (h : Renders (⟨⟨name, params, body⟩, true⟩ :: chain) ((functionsOf body).map Function.name)
      (occurrencesIn false (⟨⟨name, params, body⟩, true⟩ :: chain) body) items) :
    Renders chain [] ((Stmt.func name params body).occurrences true chain)
      [.assignFunction (mangle name) (params.map mangle) (prologue params body ++ items)] := by
  refine .one ⟨rfl, ?_⟩
  have assigned := (Mirrors.standing chain [name]).uses_perm
  simpa [Item.uses, Stmt.occurrences] using assigned.append (usesIn_body h)

end

/-! ## Statements -/

/-- A nested block: functions first, then the other statements. -/
theorem Emits.inBlock {chain : List Body} {functions others : Emission (List Item)}
    {body : List Stmt}
    (hf : Emits functions (Renders chain []
      (occurrencesIn true chain (body.filter Stmt.isFunction))))
    (ho : Emits others (Renders chain []
      (occurrencesIn true chain (body.filter fun s => !s.isFunction)))) :
    Emits (inBlock functions others) (Renders chain [] (occurrencesIn true chain body)) := by
  refine .bind hf fun a ha => .bind ho fun b hb => .pure ?_
  exact (ha.append hb).perm (occurrencesIn_perm true chain body)

mutual

theorem emits_emit (s : Setting) (chain : List Body) (loop : Option Nat) :
    ∀ stmt : Stmt, Emits (emit s loop stmt)
      (Renders chain (stmt.function?.map Function.name).toList (stmt.occurrences false chain))
  | .expr e | .ret e | .throw e => by
      rw [emit]
      exact .pure (.one (.expr chain e))
  | .assert e _ => by
      rw [emit]
      refine .pure (.one ?_)
      simpa [Item.declared, Item.uses, Code.vars, varsOf, Stmt.function?, Stmt.occurrences] using
        Mirrors.expr chain e
  | .cond test body rest => by
      rw [emit]
      refine .bind (.inBlock (emits_emitFunctions s chain body)
        (emits_emitOthers s chain loop body)) fun items h => ?_
      refine .bind (emits_emitBranch s chain loop rest) fun branch hr => .pure (.one ?_)
      exact ((Mirrors.expr chain test).append h).append hr
  | .whileLoop test body => by
      rw [emit]
      refine .newLabel fun label => .bind (.inBlock (emits_emitFunctions s chain body)
        (emits_emitOthers s chain label body)) fun items h => .pure (.one ?_)
      exact (Mirrors.expr chain test).append h
  | .doWhile test body => by
      rw [emit]
      refine .newLabel fun label => .bind (.inBlock (emits_emitFunctions s chain body)
        (emits_emitOthers s chain label body)) fun items h => .pure (.one ?_)
      simpa [Item.declared, Item.uses, Stmt.function?, Stmt.occurrences] using
        Mirrors.append h (.expr chain test)
  | .forEach header iterable body => by
      rw [emit]
      refine .newLabel fun label => .bind (.inBlock (emits_emitFunctions s chain body)
        (emits_emitOthers s chain label body)) fun items h => .pure (.one ?_)
      have names : (emittedHeader header).names ++ (code iterable).vars =
          (header.names ++ iterable.names).map mangle := by
        rw [vars_code]
        cases header <;> rfl
      rw [Item.uses, names]
      exact (Mirrors.standing chain (header.names ++ iterable.names)).append h
  | .select subject arms => by
      rw [emit]
      refine .bind (emits_emitArms s chain loop arms) fun cases h => .pure (.one ?_)
      exact (Mirrors.expr chain subject).append h
  | .func name params body => by
      rw [emit]
      exact .bind (emits_emitBody s _ s.implicitReturn body) fun items h => .pure (.function h)
  | .outer _ => by
      rw [emit]
      exact .pure .nil
  | .break | .continue => by
      rw [emit]
      exact .pure (.one .nil)
  | .attempt body name handler => by
      rw [emit]
      refine .bind (.inBlock (emits_emitFunctions s chain body)
        (emits_emitOthers s chain loop body)) fun items h => ?_
      refine .bind (.inBlock (emits_emitFunctions s chain handler)
        (emits_emitOthers s chain loop handler)) fun items' h' => .pure (.one ?_)
      simpa [Item.declared, Item.uses, Stmt.function?, Stmt.occurrences] using
        (Mirrors.append h (.standing chain [name])).append h'

theorem emits_emitBranch (s : Setting) (chain : List Body) (loop : Option Nat) :
    ∀ rest : Alternative, Emits (emitBranch s loop rest) fun branch =>
      Mirrors branch.declared (branch.uses (chain.map Body.level)) [] (rest.occurrences chain)
  | .none => by
      rw [emitBranch]
      exact .pure .nil
  | .otherwise body => by
      rw [emitBranch]
      exact .bind (.inBlock (emits_emitFunctions s chain body) (emits_emitOthers s chain loop body))
        fun items h => .pure h
  | .elif test body rest => by
      rw [emitBranch]
      refine .bind (.inBlock (emits_emitFunctions s chain body)
        (emits_emitOthers s chain loop body)) fun items h => ?_
      refine .bind (emits_emitBranch s chain loop rest) fun branch hr => .pure ?_
      exact ((Mirrors.expr chain test).append h).append hr

theorem emits_emitArms (s : Setting) (chain : List Body) (loop : Option Nat) :
    ∀ arms : List Arm, Emits (emitArms s loop arms) fun cases =>
      Mirrors (declaredInCases cases) (usesInCases (chain.map Body.level) cases) []
        (occurrencesInArms chain arms)
  | [] => by
      rw [emitArms]
      exact .pure .nil
  | .mk patterns body :: rest => by
      rw [emitArms]
      refine .bind (.inBlock (emits_emitFunctions s chain body)
        (emits_emitOthers s chain loop body)) fun items h => ?_
      refine .bind (emits_emitArms s chain loop rest) fun cases hr => .pure ?_
      rw [usesInCases, varsOf_codes]
      exact ((Mirrors.standing chain (namesInExprs patterns)).append h).append hr

theorem emits_emitFunctions (s : Setting) (chain : List Body) :
    ∀ body : List Stmt, Emits (emitFunctions s body)
      (Renders chain [] (occurrencesIn true chain (body.filter Stmt.isFunction)))
  | [] => by
      rw [emitFunctions]
      exact .pure .nil
  | .func name params body :: rest => by
      rw [emitFunctions]
      refine .bind (emits_emitBody s (⟨⟨name, params, body⟩, true⟩ :: chain) s.implicitReturn body)
        fun items h => ?_
      refine .bind (emits_emitFunctions s chain rest) fun items' hr => .pure ?_
      exact h.assignFunction.append hr
  | .expr _ :: rest | .cond .. :: rest | .whileLoop .. :: rest | .doWhile .. :: rest
  | .forEach .. :: rest | .select .. :: rest | .ret _ :: rest | .outer _ :: rest
  | .break :: rest | .continue :: rest | .assert .. :: rest | .throw _ :: rest
  | .attempt .. :: rest => by
      rw [emitFunctions]
      exact emits_emitFunctions s chain rest
      all_goals exact fun _ _ _ h => Stmt.noConfusion h

theorem emits_emitOthers (s : Setting) (chain : List Body) (loop : Option Nat) :
    ∀ body : List Stmt, Emits (emitOthers s loop body)
      (Renders chain [] (occurrencesIn true chain (body.filter fun stmt => !stmt.isFunction)))
  | [] => by
      rw [emitOthers]
      exact .pure .nil
  | stmt :: rest => by
      rw [emitOthers]
      cases hf : stmt.isFunction with
      | true =>
          have nothing : Renders chain [] [] [] := .nil
          refine .bind (.pure nothing) fun items h => ?_
          refine .bind (emits_emitOthers s chain loop rest) fun items' hr => .pure ?_
          simpa [hf] using h.append hr
      | false =>
          have none : stmt.function? = none := by simpa [Stmt.isFunction] using hf
          refine .bind (emits_emit s chain loop stmt) fun items h => ?_
          refine .bind (emits_emitOthers s chain loop rest) fun items' hr => .pure ?_
          rw [none, ← Stmt.occurrences_of_not_isFunction hf true] at h
          simpa [hf, occurrencesIn] using h.append hr

theorem emits_emitBody (s : Setting) (chain : List Body) (returns : Bool) :
    ∀ body : List Stmt, Emits (emitBody s returns body)
      (Renders chain ((functionsOf body).map Function.name) (occurrencesIn false chain body))
  | [] => by
      rw [emitBody]
      exact .pure .nil
  | stmt :: rest => by
      by_cases last : ∃ e, stmt = .expr e ∧ rest = []
      · obtain ⟨e, rfl, rfl⟩ := last
        rw [emitBody]
        refine .pure ?_
        rw [occurrencesIn, occurrencesIn, List.append_nil]
        cases returns <;> exact .one (.expr chain e)
      · rw [emitBody_cons last]
        refine .bind (emits_emit s chain none stmt) fun items h => ?_
        refine .bind (emits_emitBody s chain returns rest) fun items' hr => .pure ?_
        have names : (functionsOf (stmt :: rest)).map Function.name =
            (stmt.function?.map Function.name).toList ++ (functionsOf rest).map Function.name := by
          cases hf : stmt.function? <;> simp [functionsOf, hf]
        rw [names]
        exact h.append hr

end

/-- The variables of an emitted program are the identifiers of the program. -/
theorem usesOf_emitProgram (s : Setting) (program : List Stmt) :
    (usesOf (emitProgram s program)).Perm ((occurrencesOf program).map Occurrence.emitted) :=
  usesIn_body (emits_emitBody s [.ofProgram program] false program 0)

end ScriptLang.Target
