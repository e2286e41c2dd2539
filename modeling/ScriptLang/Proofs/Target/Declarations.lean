import Mathlib
import ScriptLang.Proofs.Program.Binding
import ScriptLang.Proofs.Target.Correspondence

/-!
# What emitted bodies declare

The target takes no body that declares a `let` name a second time, in whatever way, and
no header with a parameter twice. The `let` names of an emitted body come from the locals
of a body of the program, each of which stands there once and is neither a parameter nor
a function of that body. The header repeats the parameters as they are written.

`Declares` says what some items declare for the body around them, with the headers of
the functions in them; it goes through emission by one rule for each way of putting
emissions together.
-/

namespace ScriptLang

/-! ## Declarations of emitted code -/

namespace Target

/-- What declares a name inside of a body. -/
inductive Declaration where
  | binding (name : String)
  | function (name : String)
  deriving DecidableEq, Repr

namespace Declaration

/-- The name of a `let`. -/
def binding? : Declaration → Option String
  | binding name => some name
  | function _ => none

/-- The name of a function declaration. -/
def function? : Declaration → Option String
  | binding _ => none
  | function name => some name

end Declaration

/-- A body with the parameters in its header. The program itself has none. -/
structure Declarations where
  params : List String
  inside : List Declaration
  deriving DecidableEq, Repr

namespace Declarations

/-- The `let` names of the body. -/
def bindings (d : Declarations) : List String := d.inside.filterMap Declaration.binding?

/-- The names of the functions that are declared in the body. -/
def functions (d : Declarations) : List String := d.inside.filterMap Declaration.function?

/-- Each `let` name is declared once, parameters and functions included. -/
structure Clear (d : Declarations) : Prop where
  nodup : d.bindings.Nodup
  apart : ∀ x ∈ d.bindings, x ∉ d.params ∧ x ∉ d.functions

end Declarations

mutual

/-- What a statement declares for the body it stands in, in all of its blocks. -/
def Item.declarations : Item → List Declaration
  | .declare name => [.binding name]
  | .function name _ _ => [.function name]
  | .cond _ body rest => declarationsIn body ++ rest.declarations
  | .whileLoop _ _ body | .doWhile _ body _ | .forOf _ _ _ body => declarationsIn body
  | .switch _ arms => declarationsInCases arms
  | .tryCatch body _ handler => declarationsIn body ++ declarationsIn handler
  | .guard _ | .run _ | .assignFunction .. | .ret _ | .jump .. | .throw _ => []

/-- What is declared by what follows the body of a condition. -/
def Branch.declarations : Branch → List Declaration
  | .none => []
  | .otherwise body => declarationsIn body
  | .elseIf _ body rest => declarationsIn body ++ rest.declarations

/-- What the arms of a switch declare. -/
def declarationsInCases : List Case → List Declaration
  | [] => []
  | .mk _ body :: rest => declarationsIn body ++ declarationsInCases rest

/-- What statements declare for the body they stand in. -/
def declarationsIn : List Item → List Declaration
  | [] => []
  | item :: rest => item.declarations ++ declarationsIn rest

end

mutual

/-- The bodies of the functions in a statement, outer ones first. -/
def Item.bodies : Item → List Declarations
  | .function _ params body | .assignFunction _ params body =>
    ⟨params, declarationsIn body⟩ :: bodiesIn body
  | .cond _ body rest => bodiesIn body ++ rest.bodies
  | .whileLoop _ _ body | .doWhile _ body _ | .forOf _ _ _ body => bodiesIn body
  | .switch _ arms => bodiesInCases arms
  | .tryCatch body _ handler => bodiesIn body ++ bodiesIn handler
  | .guard _ | .declare _ | .run _ | .ret _ | .jump .. | .throw _ => []

/-- The bodies of the functions in what follows the body of a condition. -/
def Branch.bodies : Branch → List Declarations
  | .none => []
  | .otherwise body => bodiesIn body
  | .elseIf _ body rest => bodiesIn body ++ rest.bodies

/-- The bodies of the functions in the arms of a switch. -/
def bodiesInCases : List Case → List Declarations
  | [] => []
  | .mk _ body :: rest => bodiesIn body ++ bodiesInCases rest

/-- The bodies of the functions in statements. -/
def bodiesIn : List Item → List Declarations
  | [] => []
  | item :: rest => item.bodies ++ bodiesIn rest

end

/-- Every body of an emitted program, the program's own first. -/
def bodiesOf (items : List Item) : List Declarations := ⟨[], declarationsIn items⟩ :: bodiesIn items

theorem declarationsIn_append (a b : List Item) :
    declarationsIn (a ++ b) = declarationsIn a ++ declarationsIn b := by
  induction a with
  | nil => rfl
  | cons item rest ih => simp [declarationsIn, ih]

theorem bodiesIn_append (a b : List Item) : bodiesIn (a ++ b) = bodiesIn a ++ bodiesIn b := by
  induction a with
  | nil => rfl
  | cons item rest ih => simp [bodiesIn, ih]

end Target

/-! ## Scopes of a block -/

theorem scopesOfBlock_eq_flatMap (body : List Stmt) :
    scopesOfBlock body = body.flatMap Stmt.scopes := by
  induction body with
  | nil => rfl
  | cons s rest ih => rw [scopesOfBlock, List.flatMap_cons, ih]

/-- The functions of a block may be taken out of its other statements. -/
theorem scopesOfBlock_perm (body : List Stmt) :
    (scopesOfBlock (body.filter Stmt.isFunction) ++
      scopesOfBlock (body.filter fun s => !s.isFunction)).Perm (scopesOfBlock body) := by
  simp only [scopesOfBlock_eq_flatMap]
  rw [← List.flatMap_append]
  exact (List.filter_append_perm Stmt.isFunction body).flatMap_right _

/-- A local is neither a parameter nor a function of the body. -/
theorem not_mem_of_mem_locals {params : List String} {body : List Stmt} {x : String}
    (h : x ∈ locals params body) : x ∉ params ∧ x ∉ (functionsOf body).map Function.name := by
  obtain ⟨-, param, -, function⟩ := mem_locals.mp h
  exact ⟨param, function⟩

namespace Target

theorem nodup_map_mangle {names : List String} : (names.map mangle).Nodup ↔ names.Nodup :=
  List.nodup_map_iff fun _ _ => eq_of_mangle_eq

/-! ## What emissions declare -/

/-- These functions are declared and nothing else, and the bodies of functions are clear
and have these parameters in their headers, up to order. -/
structure Accounts (declarations : List Declaration) (bodies : List Declarations)
    (functions : List String) (scopes : List Scope) : Prop where
  declarations_eq : declarations = functions.map fun x => .function (mangle x)
  clear : ∀ d ∈ bodies, d.Clear
  heads_perm : (bodies.map Declarations.params).Perm (scopes.map fun c => c.params.map mangle)

namespace Accounts

variable {declarations declarations' : List Declaration} {bodies bodies' : List Declarations}
  {functions functions' : List String} {scopes scopes' : List Scope}

theorem nil : Accounts [] [] [] [] := ⟨rfl, nofun, .nil⟩

theorem append (h : Accounts declarations bodies functions scopes)
    (h' : Accounts declarations' bodies' functions' scopes') :
    Accounts (declarations ++ declarations') (bodies ++ bodies') (functions ++ functions')
      (scopes ++ scopes') where
  declarations_eq := by rw [h.declarations_eq, h'.declarations_eq, List.map_append]
  clear := List.forall_mem_append.mpr ⟨h.clear, h'.clear⟩
  heads_perm := by
    rw [List.map_append, List.map_append]
    exact h.heads_perm.append h'.heads_perm

theorem perm (h : Accounts declarations bodies functions scopes) (same : scopes.Perm scopes') :
    Accounts declarations bodies functions scopes' :=
  ⟨h.declarations_eq, h.clear, h.heads_perm.trans (same.map _)⟩

end Accounts

/-- The items declare these functions for the body around them, and the functions in them
have these scopes. -/
def Declares (functions : List String) (scopes : List Scope) (items : List Item) : Prop :=
  Accounts (declarationsIn items) (bodiesIn items) functions scopes

namespace Declares

variable {functions functions' : List String} {scopes scopes' : List Scope}
  {items items' : List Item}

theorem nil : Declares [] [] [] := Accounts.nil

theorem append (h : Declares functions scopes items) (h' : Declares functions' scopes' items') :
    Declares (functions ++ functions') (scopes ++ scopes') (items ++ items') := by
  rw [Declares, declarationsIn_append, bodiesIn_append]
  exact Accounts.append h h'

theorem one {item : Item} (h : Accounts item.declarations item.bodies functions scopes) :
    Declares functions scopes [item] := by
  simpa [Declares, declarationsIn, bodiesIn] using h

end Declares

/-! ## Functions -/

section

variable {name : String} {params : List String} {body : List Stmt} {items : List Item}

theorem declarationsIn_prologue (params : List String) (body : List Stmt) :
    declarationsIn (prologue params body) =
      (locals params body).map fun x => .binding (mangle x) := by
  have guards (names : List String) :
      declarationsIn (names.map fun p => .guard (mangle p)) = [] := by
    induction names with
    | nil => rfl
    | cons p rest ih => simpa [declarationsIn, Item.declarations] using ih
  have lets (names : List String) : declarationsIn (names.map fun x => .declare (mangle x)) =
      names.map fun x => .binding (mangle x) := by
    induction names with
    | nil => rfl
    | cons x rest ih => simpa [declarationsIn, Item.declarations] using ih
  rw [prologue, declarationsIn_append, guards, lets, List.nil_append]

theorem bodiesIn_prologue (params : List String) (body : List Stmt) :
    bodiesIn (prologue params body) = [] := by
  have own (items : List Item) (each : ∀ item ∈ items, item.bodies = []) : bodiesIn items = [] := by
    induction items with
    | nil => rfl
    | cons item rest ih =>
        rw [bodiesIn, each item List.mem_cons_self, List.nil_append]
        exact ih fun item hitem => each item (List.mem_cons_of_mem _ hitem)
  refine own _ fun item hitem => ?_
  simp only [prologue, List.mem_append, List.mem_map] at hitem
  rcases hitem with ⟨p, -, rfl⟩ | ⟨x, -, rfl⟩ <;> rfl

/-- The locals and the functions of a body of the program, as they are declared. -/
def Declarations.ofBody (params : List String) (body : List Stmt) : Declarations where
  params := params.map mangle
  inside := ((locals params body).map fun x => .binding (mangle x)) ++
    ((functionsOf body).map Function.name).map fun x => .function (mangle x)

namespace Declarations

theorem bindings_ofBody (params : List String) (body : List Stmt) :
    (ofBody params body).bindings = (locals params body).map mangle := by
  simp [ofBody, bindings, List.filterMap_map, Function.comp_def, Declaration.binding?]

theorem functions_ofBody (params : List String) (body : List Stmt) :
    (ofBody params body).functions = ((functionsOf body).map Function.name).map mangle := by
  simp [ofBody, functions, List.filterMap_map, Function.comp_def, Declaration.function?]

theorem clear_ofBody (params : List String) (body : List Stmt) : (ofBody params body).Clear where
  nodup := by
    rw [bindings_ofBody]
    exact nodup_map_mangle.mpr (nodup_locals params body)
  apart := by
    rw [bindings_ofBody, functions_ofBody]
    intro y hy
    obtain ⟨x, hx, rfl⟩ := List.mem_map.mp hy
    rw [ofBody, mem_map_mangle, mem_map_mangle]
    exact not_mem_of_mem_locals hx

end Declarations

/-- A body, with the bodies of the functions inside of it. -/
theorem accounts_body (owner : Option String) (params : List String)
    (h : Declares ((functionsOf body).map Function.name) (scopesOfBlock body) items) :
    Accounts [] (⟨params.map mangle, declarationsIn (prologue params body ++ items)⟩ ::
        bodiesIn (prologue params body ++ items)) []
      (⟨owner, params, locals params body⟩ :: scopesOfBlock body) := by
  have inside : declarationsIn (prologue params body ++ items) =
      (Declarations.ofBody params body).inside := by
    rw [declarationsIn_append, declarationsIn_prologue, h.declarations_eq, Declarations.ofBody]
  rw [inside, bodiesIn_append, bodiesIn_prologue, List.nil_append]
  refine ⟨rfl, List.forall_mem_cons.mpr ⟨?_, h.clear⟩, h.heads_perm.cons _⟩
  exact Declarations.clear_ofBody params body

/-- A function at the top of a body is a declaration. -/
theorem Declares.function
    (h : Declares ((functionsOf body).map Function.name) (scopesOfBlock body) items) :
    Declares [name] (Stmt.func name params body).scopes
      [.function (mangle name) (params.map mangle) (prologue params body ++ items)] := by
  have declared : Accounts [.function (mangle name)] [] [name] [] := ⟨rfl, nofun, .nil⟩
  exact .one (declared.append (accounts_body (some name) params h))

/-- A function of a nested block declares nothing. -/
theorem Declares.assignFunction
    (h : Declares ((functionsOf body).map Function.name) (scopesOfBlock body) items) :
    Declares [] (Stmt.func name params body).scopes
      [.assignFunction (mangle name) (params.map mangle) (prologue params body ++ items)] :=
  .one (accounts_body (some name) params h)

end

/-! ## Statements -/

/-- A nested block: functions first, then the other statements. -/
theorem declares_inBlock {body : List Stmt} {fs others : Emission (List Item)}
    (hf : Emits fs (Declares [] (scopesOfBlock (body.filter Stmt.isFunction))))
    (ho : Emits others (Declares [] (scopesOfBlock (body.filter fun s => !s.isFunction)))) :
    Emits (inBlock fs others) (Declares [] (scopesOfBlock body)) := by
  refine .bind hf fun a ha => .bind ho fun b hb => .pure ?_
  exact (ha.append hb).perm (scopesOfBlock_perm body)

mutual

theorem declares_emit (s : Setting) (loop : Option Nat) : ∀ stmt : Stmt,
    Emits (emit s loop stmt) (Declares (stmt.function?.map Function.name).toList stmt.scopes)
  | .expr _ | .ret _ | .throw _ | .assert _ _ | .break | .continue => by
      rw [emit]
      exact .pure (.one .nil)
  | .outer _ => by
      rw [emit]
      exact .pure .nil
  | .cond _ body rest => by
      rw [emit]
      refine .bind (declares_inBlock (declares_emitFunctions s body)
        (declares_emitOthers s loop body)) fun items h => ?_
      exact .bind (declares_emitBranch s loop rest) fun branch hr => .pure (.one (.append h hr))
  | .whileLoop _ body | .doWhile _ body | .forEach _ _ body => by
      rw [emit]
      exact .newLabel fun label => .bind (declares_inBlock (declares_emitFunctions s body)
        (declares_emitOthers s label body)) fun items h => .pure (.one h)
  | .select _ arms => by
      rw [emit]
      exact .bind (declares_emitArms s loop arms) fun cases h => .pure (.one h)
  | .func _ _ body => by
      rw [emit]
      exact .bind (declares_emitBody s s.implicitReturn body) fun items h => .pure h.function
  | .attempt body _ handler => by
      rw [emit]
      refine .bind (declares_inBlock (declares_emitFunctions s body)
        (declares_emitOthers s loop body)) fun items h => ?_
      exact .bind (declares_inBlock (declares_emitFunctions s handler)
        (declares_emitOthers s loop handler)) fun items' h' => .pure (.one (.append h h'))

theorem declares_emitBranch (s : Setting) (loop : Option Nat) : ∀ rest : Alternative,
    Emits (emitBranch s loop rest) fun branch =>
      Accounts branch.declarations branch.bodies [] rest.scopes
  | .none => by
      rw [emitBranch]
      exact .pure .nil
  | .otherwise body => by
      rw [emitBranch]
      exact .bind (declares_inBlock (declares_emitFunctions s body)
        (declares_emitOthers s loop body)) fun items h => .pure h
  | .elif _ body rest => by
      rw [emitBranch]
      refine .bind (declares_inBlock (declares_emitFunctions s body)
        (declares_emitOthers s loop body)) fun items h => ?_
      exact .bind (declares_emitBranch s loop rest) fun branch hr => .pure (.append h hr)

theorem declares_emitArms (s : Setting) (loop : Option Nat) : ∀ arms : List Arm,
    Emits (emitArms s loop arms) fun cases =>
      Accounts (declarationsInCases cases) (bodiesInCases cases) [] (scopesOfArms arms)
  | [] => by
      rw [emitArms]
      exact .pure .nil
  | .mk _ body :: rest => by
      rw [emitArms]
      refine .bind (declares_inBlock (declares_emitFunctions s body)
        (declares_emitOthers s loop body)) fun items h => ?_
      exact .bind (declares_emitArms s loop rest) fun cases hr => .pure (.append h hr)

theorem declares_emitFunctions (s : Setting) : ∀ body : List Stmt,
    Emits (emitFunctions s body) (Declares [] (scopesOfBlock (body.filter Stmt.isFunction)))
  | [] => by
      rw [emitFunctions]
      exact .pure .nil
  | .func _ _ body :: rest => by
      rw [emitFunctions]
      refine .bind (declares_emitBody s s.implicitReturn body) fun items h => ?_
      exact .bind (declares_emitFunctions s rest) fun items' hr =>
        .pure (h.assignFunction.append hr)
  | .expr _ :: rest | .cond .. :: rest | .whileLoop .. :: rest | .doWhile .. :: rest
  | .forEach .. :: rest | .select .. :: rest | .ret _ :: rest | .outer _ :: rest
  | .break :: rest | .continue :: rest | .assert .. :: rest | .throw _ :: rest
  | .attempt .. :: rest => by
      rw [emitFunctions]
      exact declares_emitFunctions s rest
      all_goals exact fun _ _ _ h => Stmt.noConfusion h

theorem declares_emitOthers (s : Setting) (loop : Option Nat) : ∀ body : List Stmt,
    Emits (emitOthers s loop body)
      (Declares [] (scopesOfBlock (body.filter fun stmt => !stmt.isFunction)))
  | [] => by
      rw [emitOthers]
      exact .pure .nil
  | stmt :: rest => by
      rw [emitOthers]
      cases hf : stmt.isFunction with
      | true =>
          refine .bind (.pure (P := Declares [] []) .nil) fun items h => ?_
          refine .bind (declares_emitOthers s loop rest) fun items' hr => .pure ?_
          simpa [hf] using h.append hr
      | false =>
          have none : stmt.function? = none := by simpa [Stmt.isFunction] using hf
          refine .bind (declares_emit s loop stmt) fun items h => ?_
          refine .bind (declares_emitOthers s loop rest) fun items' hr => .pure ?_
          rw [none] at h
          simpa [hf, scopesOfBlock] using h.append hr

theorem declares_emitBody (s : Setting) (returns : Bool) : ∀ body : List Stmt,
    Emits (emitBody s returns body)
      (Declares ((functionsOf body).map Function.name) (scopesOfBlock body))
  | [] => by
      rw [emitBody]
      exact .pure .nil
  | stmt :: rest => by
      by_cases last : ∃ e, stmt = .expr e ∧ rest = []
      · obtain ⟨e, rfl, rfl⟩ := last
        rw [emitBody]
        refine .pure ?_
        cases returns <;> exact .one .nil
      · rw [emitBody_cons last]
        refine .bind (declares_emit s none stmt) fun items h => ?_
        refine .bind (declares_emitBody s returns rest) fun items' hr => .pure ?_
        have names : (functionsOf (stmt :: rest)).map Function.name =
            (stmt.function?.map Function.name).toList ++ (functionsOf rest).map Function.name := by
          cases hf : stmt.function? <;> simp [functionsOf, hf]
        rw [names]
        exact h.append hr

end

/-- The bodies of an emitted program are those of the scopes of the program. -/
theorem accounts_emitProgram (s : Setting) (program : List Stmt) :
    Accounts [] (bodiesOf (emitProgram s program)) [] (scopesOf program) :=
  accounts_body none [] (declares_emitBody s false program 0)

end Target

/-- In every emitted body the `let` names differ from each other, from the parameters and
from the functions that are declared there. The parameters in every header differ exactly
if those of every function of the program do: a list of parameters is written out as it
was read. -/
theorem declared_once (o : Options) (file : String) (program : List Stmt) :
    (∀ d ∈ Target.bodiesOf (Target.emitProgram ⟨file, o.implicitReturn⟩ program),
      d.bindings.Nodup ∧ ∀ x ∈ d.bindings, x ∉ d.params ∧ x ∉ d.functions) ∧
    ((∀ d ∈ Target.bodiesOf (Target.emitProgram ⟨file, o.implicitReturn⟩ program),
      d.params.Nodup) ↔ ∀ c ∈ scopesOf program, c.params.Nodup) := by
  obtain ⟨-, clear, heads⟩ := Target.accounts_emitProgram ⟨file, o.implicitReturn⟩ program
  refine ⟨fun d hd => ⟨(clear d hd).nodup, (clear d hd).apart⟩, ?_⟩
  have emitted (P : List String → Prop) :
      (∀ d ∈ Target.bodiesOf (Target.emitProgram ⟨file, o.implicitReturn⟩ program),
        P d.params) ↔ ∀ c ∈ scopesOf program, P (c.params.map Target.mangle) := by
    have same : (∀ ps ∈ (Target.bodiesOf (Target.emitProgram ⟨file, o.implicitReturn⟩
        program)).map Target.Declarations.params, P ps) ↔
          ∀ ps ∈ (scopesOf program).map fun c => c.params.map Target.mangle, P ps :=
      ⟨fun all ps hp => all ps (heads.symm.subset hp), fun all ps hp => all ps (heads.subset hp)⟩
    rwa [List.forall_mem_map, List.forall_mem_map] at same
  simp only [emitted, Target.nodup_map_mangle]

/-- A function whose parameters share a name is read and emitted with that header. -/
theorem declared_twice :
    parse {} "fn f(a, a)\nend\n" = .ok [.func "f" ["a", "a"] []] ∧
      generate {} "a" [.func "f" ["a", "a"] []] =
        "function f(a, a) \x7b\n    if (a === undefined) a = null;\n" ++
          "    if (a === undefined) a = null;\n\x7d\n" ∧
      ∃ d ∈ Target.bodiesOf (Target.emitProgram ⟨"a", false⟩ [.func "f" ["a", "a"] []]),
        ¬ d.params.Nodup := by
  refine ⟨by cbv, by decide +kernel, ⟨["a", "a"], []⟩, ?_, by decide⟩
  decide +kernel

end ScriptLang
