import Mathlib.Logic.Relation
import Mathlib.Tactic.Tauto
import ScriptLang.Program.Scope

/-!
# Pieces of a body

A body is made of statements, blocks and expressions, and so on down to names
and literals. The pieces of a body are everything that may run while an
activation of it is the current one. The body of a function defined there is not
among them: it runs in an activation of its own.

What a piece binds is bound by every piece around it. Together with the rule for
locals this says which names the frame of an activation has to hold.
-/

namespace ScriptLang

/-- A piece of a body. -/
inductive Fragment where
  | expr (e : Expr)
  | exprs (items : List Expr)
  | entries (entries : List (Expr × Expr))
  | stmt (s : Stmt)
  /-- Statements that run one after the other. -/
  | stmts (body : List Stmt)
  /-- A nested block, which also assigns its functions to the names they have. -/
  | block (body : List Stmt)
  | alternative (rest : Alternative)
  | arms (arms : List Arm)

namespace Fragment

/-- The pieces that a piece is made of, one level down. -/
def parts : Fragment → List Fragment
  | expr (.ident _) | expr (.number _) | expr (.str _) | expr .omitted => []
  | expr (.unary _ operand) => [expr operand]
  | expr (.binary _ lhs rhs) => [expr lhs, expr rhs]
  | expr (.assign _ target value) => [expr target, expr value]
  | expr (.call callee args) => [expr callee, exprs args]
  | expr (.index target index) => [expr target, expr index]
  | expr (.slice target start stop) => [expr target, expr start, expr stop]
  | expr (.map es) => [entries es]
  | expr (.list items) => [exprs items]
  | exprs [] => []
  | exprs (e :: rest) => [expr e, exprs rest]
  | entries [] => []
  | entries ((key, value) :: rest) => [expr key, expr value, entries rest]
  | stmt (.expr e) | stmt (.ret e) | stmt (.throw e) | stmt (.assert e _) => [expr e]
  | stmt (.cond test body rest) => [expr test, block body, alternative rest]
  | stmt (.whileLoop test body) | stmt (.doWhile test body) => [expr test, block body]
  | stmt (.forEach _ iterable body) => [expr iterable, block body]
  | stmt (.select subject as) => [expr subject, arms as]
  | stmt (.attempt body _ handler) => [block body, block handler]
  | stmt (.func ..) | stmt (.outer _) | stmt .break | stmt .continue => []
  | stmts [] => []
  | stmts (s :: rest) => [stmt s, stmts rest]
  | block body => [stmts body]
  | alternative .none => []
  | alternative (.otherwise body) => [block body]
  | alternative (.elif test body rest) => [expr test, block body, alternative rest]
  | arms [] => []
  | arms (.mk patterns body :: rest) => [exprs patterns, block body, arms rest]

/-- The names that a piece binds. -/
def bound : Fragment → List String
  | expr e => e.bound
  | exprs items => boundInExprs items
  | entries es => boundInEntries es
  | stmt s => s.bound false
  | stmts body => boundInBody body
  | block body => boundInBlock body
  | alternative rest => rest.bound
  | arms as => boundInArms as

/-- The piece lies somewhere inside another one, or is the same one. -/
def Within (piece root : Fragment) : Prop :=
  Relation.ReflTransGen (fun whole part => part ∈ whole.parts) root piece

namespace Within

theorem refl (root : Fragment) : root.Within root := Relation.ReflTransGen.refl

theorem part {whole part root : Fragment} (h : whole.Within root) (hp : part ∈ whole.parts) :
    part.Within root :=
  Relation.ReflTransGen.tail h hp

theorem trans {inner middle root : Fragment} (h : inner.Within middle)
    (hm : middle.Within root) : inner.Within root :=
  Relation.ReflTransGen.trans hm h

end Within

end Fragment

/-! ## Bound names -/

theorem mem_boundInBody_cons {x : String} {s : Stmt} {rest : List Stmt} :
    x ∈ boundInBody (s :: rest) ↔ x ∈ s.bound false ∨ x ∈ boundInBody rest := by
  simp [boundInBody]

/-- An assignment binds what its two sides bind; a plain one may bind its target too. -/
theorem Expr.bound_assign {x : String} {op : Option BinaryOp} {target value : Expr}
    (h : x ∈ target.bound ∨ x ∈ value.bound) : x ∈ (Expr.assign op target value).bound := by
  cases op <;> cases target <;> simp only [Expr.bound] at h ⊢ <;> grind

/-- Standing in a nested block adds the name of a function and nothing else. -/
theorem Stmt.bound_true (s : Stmt) :
    s.bound true = (s.function?.map Function.name).toList ++ s.bound false := by
  cases s <;> simp [Stmt.bound, Stmt.function?]

/-- A nested block binds what its statements bind and the functions it defines. -/
theorem mem_boundInBlock {x : String} {body : List Stmt} :
    x ∈ boundInBlock body ↔
      x ∈ boundInBody body ∨ x ∈ (functionsOf body).map Function.name := by
  induction body with
  | nil => simp [boundInBlock, boundInBody, functionsOf]
  | cons s rest ih =>
      rw [boundInBlock, List.mem_append, ih, mem_boundInBody_cons, Stmt.bound_true]
      cases hf : s.function? with
      | none => simp [functionsOf, hf, or_assoc]
      | some f =>
          simp only [functionsOf, List.filterMap_cons, hf, Option.map_some, Option.toList_some,
            List.mem_append, List.map_cons, List.mem_cons, List.not_mem_nil, or_false]
          tauto

namespace Fragment

/-- Going one level down loses bound names but never gains one. -/
theorem bound_subset_of_mem_parts {whole part : Fragment} (h : part ∈ whole.parts) :
    part.bound ⊆ whole.bound := by
  intro x hx
  cases whole with
  | expr e =>
      cases e with
      | assign op target value =>
          simp only [parts, List.mem_cons, List.not_mem_nil, or_false] at h
          rcases h with rfl | rfl
          · exact Expr.bound_assign (.inl hx)
          · exact Expr.bound_assign (.inr hx)
      | _ => grind [parts, bound, Expr.bound]
  | exprs items => cases items <;> grind [parts, bound, boundInExprs]
  | entries es => rcases es with _ | ⟨⟨key, value⟩, rest⟩ <;> grind [parts, bound, boundInEntries]
  | stmt s => cases s <;> grind [parts, bound, Stmt.bound]
  | stmts body =>
      cases body with
      | nil => simp [parts] at h
      | cons s rest =>
          simp only [parts, List.mem_cons, List.not_mem_nil, or_false] at h
          rcases h with rfl | rfl
          · exact mem_boundInBody_cons.mpr (.inl hx)
          · exact mem_boundInBody_cons.mpr (.inr hx)
  | block body =>
      simp only [parts, List.mem_singleton] at h
      subst h
      exact mem_boundInBlock.mpr (.inl hx)
  | alternative rest => cases rest <;> grind [parts, bound, Alternative.bound]
  | arms as => rcases as with _ | ⟨⟨patterns, body⟩, rest⟩ <;> grind [parts, bound, boundInArms]

theorem Within.bound_subset {piece root : Fragment} (h : piece.Within root) :
    piece.bound ⊆ root.bound := by
  induction h with
  | refl => exact List.Subset.refl _
  | tail _ hp ih => exact List.Subset.trans (bound_subset_of_mem_parts hp) ih

/-- A statement of a sequence lies inside it. -/
theorem within_stmts_of_mem {s : Stmt} {body : List Stmt} (h : s ∈ body) :
    (stmt s).Within (stmts body) := by
  induction body with
  | nil => exact absurd h List.not_mem_nil
  | cons t rest ih =>
      rcases List.mem_cons.mp h with rfl | h
      · exact (Within.refl _).part (by simp [parts])
      · exact (ih h).trans ((Within.refl _).part (by simp [parts]))

end Fragment

theorem mem_functionsOf {f : Function} {body : List Stmt} :
    f ∈ functionsOf body ↔ .func f.name f.params f.body ∈ body := by
  simp only [functionsOf, List.mem_filterMap]
  constructor
  · rintro ⟨s, hs, hf⟩
    cases s <;> simp [Stmt.function?] at hf
    subst hf
    exact hs
  · exact fun h => ⟨_, h, rfl⟩

end ScriptLang
