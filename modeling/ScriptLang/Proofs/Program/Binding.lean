import Mathlib.Data.List.Lex
import Mathlib.Data.List.Nodup
import ScriptLang.Proofs.Program.Fragment

/-!
# Where names are bound

The syntax tree of a body, one level at a time, with the names that are bound and the
names that an `outer` lists as its leaves. A position in the tree is the path to it, so the
positions of a body are in source order when paths are compared like words in a dictionary.

The locals of a body are the names with a position where they are bound, in the order of the
first of these positions, without parameters, `outer` names and the functions of the body.
-/

namespace ScriptLang

/-! ## The tree of a body -/

/-- What stands in a body. -/
inductive Node where
  /-- The body itself. -/
  | root (body : List Stmt)
  /-- A statement, in a nested block or of the body itself. -/
  | stmt (nested : Bool) (s : Stmt)
  | alternative (rest : Alternative)
  | arm (a : Arm)
  | expr (e : Expr)
  /-- A name where it is bound. -/
  | bound (name : String)
  /-- A name that an `outer` lists. -/
  | outer (name : String)

/-- The path to a position: which part is entered at each level. -/
abbrev Position := List Nat

namespace Node

/-- The statements of a nested block. -/
def block (body : List Stmt) : List Node := body.map (stmt true)

/-- What stands one level below, in source order. A function of the body has its name for
itself, and the body of a function is a tree of its own. -/
def children : Node → List Node
  | root body => body.map (stmt false)
  | stmt _ (.expr e) | stmt _ (.ret e) | stmt _ (.throw e) | stmt _ (.assert e _) => [expr e]
  | stmt _ (.cond test body rest) => expr test :: block body ++ [alternative rest]
  | stmt _ (.whileLoop test body) | stmt _ (.doWhile test body) => expr test :: block body
  | stmt _ (.forEach header iterable body) => header.names.map bound ++ expr iterable :: block body
  | stmt _ (.select subject arms) => expr subject :: arms.map arm
  | stmt nested (.func name _ _) => if nested then [bound name] else []
  | stmt _ (.outer names) => names.map outer
  | stmt _ .break | stmt _ .continue => []
  | stmt _ (.attempt body name handler) => block body ++ bound name :: block handler
  | alternative .none => []
  | alternative (.otherwise body) => block body
  | alternative (.elif test body rest) => expr test :: block body ++ [alternative rest]
  | arm a => a.patterns.map expr ++ block a.body
  | expr (.ident _) | expr (.number _) | expr (.str _) | expr .omitted => []
  | expr (.unary _ operand) => [expr operand]
  | expr (.binary _ lhs rhs) => [expr lhs, expr rhs]
  | expr (.assign none (.ident name) value) => [bound name, expr value]
  | expr (.assign _ target value) => [expr target, expr value]
  | expr (.call callee args) => expr callee :: args.map expr
  | expr (.index target index) => [expr target, expr index]
  | expr (.slice target start stop) => [expr target, expr start, expr stop]
  | expr (.map entries) => entries.flatMap fun entry => [expr entry.1, expr entry.2]
  | expr (.list items) => items.map expr
  | bound _ | outer _ => []

/-- What stands at a position. -/
def at? (n : Node) : Position → Option Node
  | [] => some n
  | i :: position => n.children[i]?.bind fun child => child.at? position

/-! ### Induction along the tree -/

/-- The property holds of a node when it holds of everything one level below. -/
def Ascends (P : Node → Prop) : Prop := ∀ n : Node, (∀ child ∈ n.children, P child) → P n

namespace Ascends

variable {P : Node → Prop}

theorem of_bound (step : Ascends P) (name : String) : P (bound name) := step _ nofun

theorem of_outer (step : Ascends P) (name : String) : P (outer name) := step _ nofun

mutual

theorem of_expr (step : Ascends P) : ∀ e : Expr, P (expr e)
  | .ident _ | .number _ | .str _ | .omitted => step _ nofun
  | .unary _ operand => step _ (by simp [children, step.of_expr operand])
  | .binary _ lhs rhs => step _ (by simp [children, step.of_expr lhs, step.of_expr rhs])
  | .assign op target value => by
      have left := step.of_expr target
      have right := step.of_expr value
      refine step _ ?_
      cases op <;> cases target <;> simp [children, step.of_bound, left, right]
  | .call callee args => step _ (by simpa [children, step.of_expr callee] using step.of_exprs args)
  | .index target index => step _ (by simp [children, step.of_expr target, step.of_expr index])
  | .slice target start stop =>
      step _ (by simp [children, step.of_expr target, step.of_expr start, step.of_expr stop])
  | .map entries => step _ (by
      intro child h
      obtain ⟨entry, there, h⟩ := List.mem_flatMap.mp h
      obtain ⟨key, value⟩ := step.of_entries entries entry there
      simp only [List.mem_cons, List.not_mem_nil, or_false] at h
      rcases h with rfl | rfl
      · exact key
      · exact value)
  | .list items => step _ (by simpa [children] using step.of_exprs items)

theorem of_exprs (step : Ascends P) : ∀ es : List Expr, ∀ e ∈ es, P (expr e)
  | [] => nofun
  | e :: es => List.forall_mem_cons.mpr ⟨step.of_expr e, step.of_exprs es⟩

theorem of_entries (step : Ascends P) :
    ∀ es : List (Expr × Expr), ∀ entry ∈ es, P (expr entry.1) ∧ P (expr entry.2)
  | [] => nofun
  | (key, value) :: es =>
      List.forall_mem_cons.mpr ⟨⟨step.of_expr key, step.of_expr value⟩, step.of_entries es⟩

end

mutual

theorem of_stmt (step : Ascends P) (nested : Bool) : ∀ s : Stmt, P (stmt nested s)
  | .expr e | .ret e | .throw e | .assert e _ => step _ (by simp [children, step.of_expr e])
  | .cond test body rest => step _ (by
      simpa [children, or_imp, forall_and, step.of_expr test, step.of_alternative rest]
        using step.of_block body)
  | .whileLoop test body | .doWhile test body => step _ (by
      simpa [children, step.of_expr test] using step.of_block body)
  | .forEach header iterable body => step _ (by
      simpa [children, or_imp, forall_and, step.of_bound, step.of_expr iterable]
        using step.of_block body)
  | .select subject arms => step _ (by
      simpa [children, step.of_expr subject] using step.of_arms arms)
  | .func name _ _ => step _ (by cases nested <;> simp [children, step.of_bound])
  | .outer names => step _ (by simp [children, step.of_outer])
  | .break | .continue => step _ nofun
  | .attempt body name handler => step _ (by
      simpa [children, or_imp, forall_and, step.of_bound]
        using ⟨step.of_block body, step.of_block handler⟩)

theorem of_alternative (step : Ascends P) : ∀ rest : Alternative, P (alternative rest)
  | .none => step _ nofun
  | .otherwise body => step _ (step.of_block body)
  | .elif test body rest => step _ (by
      simpa [children, or_imp, forall_and, step.of_expr test, step.of_alternative rest]
        using step.of_block body)

theorem of_arms (step : Ascends P) : ∀ arms : List Arm, ∀ a ∈ arms, P (arm a)
  | [] => nofun
  | .mk patterns body :: arms => by
      refine List.forall_mem_cons.mpr ⟨step _ ?_, step.of_arms arms⟩
      simpa [children, or_imp, forall_and, Arm.patterns, Arm.body]
        using ⟨step.of_exprs patterns, step.of_block body⟩

theorem of_block (step : Ascends P) : ∀ body : List Stmt, ∀ child ∈ block body, P child
  | [] => nofun
  | s :: body => List.forall_mem_cons.mpr ⟨step.of_stmt true s, step.of_block body⟩

end

/-- A property that ascends holds of all nodes. -/
theorem all (step : Ascends P) : ∀ n : Node, P n
  | .root body => step _ (by
      intro child h
      obtain ⟨s, -, rfl⟩ := List.mem_map.mp h
      exact step.of_stmt false s)
  | .stmt nested s => step.of_stmt nested s
  | .alternative rest => step.of_alternative rest
  | .arm a => step.of_arms [a] a List.mem_cons_self
  | .expr e => step.of_expr e
  | .bound name => step.of_bound name
  | .outer name => step.of_outer name

end Ascends

/-! ### Leaves in source order -/

/-- The names are those of the leaves of one kind, each at its position, in source order. -/
def Enumerates (leaf : String → Node) (n : Node) (names : List String) : Prop :=
  ∃ sites : List (Position × String), sites.map Prod.snd = names ∧
    sites.Pairwise (fun a b => a.1 < b.1) ∧
    ∀ position name, (position, name) ∈ sites ↔ n.at? position = some (leaf name)

variable {leaf : String → Node} {names : Node → List String}

/-- The leaves of several nodes that stand one behind the other, the first with number `k`. -/
theorem enumerates_list {nodes : List Node} (h : ∀ n ∈ nodes, n.Enumerates leaf (names n)) :
    ∀ k : Nat, ∃ sites : List (Position × String), sites.map Prod.snd = nodes.flatMap names ∧
      sites.Pairwise (fun a b => a.1 < b.1) ∧
      ∀ position name, (position, name) ∈ sites ↔ ∃ i below, position = (k + i) :: below ∧
        (nodes[i]?.bind fun n => n.at? below) = some (leaf name) := by
  induction nodes with
  | nil => exact fun k => ⟨[], rfl, .nil, by simp⟩
  | cons n nodes ih =>
      intro k
      obtain ⟨first, firstNames, firstOrder, firstSites⟩ := h n List.mem_cons_self
      obtain ⟨others, otherNames, otherOrder, otherSites⟩ :=
        ih (fun m hm => h m (List.mem_cons_of_mem _ hm)) (k + 1)
      refine ⟨first.map (fun site => (k :: site.1, site.2)) ++ others, ?_, ?_, ?_⟩
      · rw [List.map_append, List.map_map, otherNames, List.flatMap_cons, ← firstNames]
        rfl
      · refine List.pairwise_append.mpr ⟨?_, otherOrder, ?_⟩
        · refine List.pairwise_map.mpr (firstOrder.imp fun before => ?_)
          exact List.cons_lt_cons_self.mpr before
        · rintro _ inFirst ⟨position, name⟩ inOthers
          obtain ⟨site, -, rfl⟩ := List.mem_map.mp inFirst
          obtain ⟨i, below, rfl, -⟩ := (otherSites position name).mp inOthers
          exact List.Lex.rel (by omega)
      · intro position name
        have shift (i : Nat) : k + 1 + i = k + (i + 1) := by omega
        rw [List.mem_append, otherSites, List.mem_map]
        constructor
        · rintro (⟨⟨below, name⟩, inFirst, ⟨⟩⟩ | ⟨i, below, rfl, found⟩)
          · exact ⟨0, below, rfl, (firstSites below name).mp inFirst⟩
          · exact ⟨i + 1, below, by rw [shift], found⟩
        · rintro ⟨i, below, rfl, found⟩
          cases i with
          | zero => exact .inl ⟨(below, name), (firstSites below name).mpr found, rfl⟩
          | succ i => exact .inr ⟨i, below, by rw [shift], found⟩

/-- Names that are listed level by level enumerate the leaves. -/
theorem enumerates (names : Node → List String) (apart : ∀ x y, leaf x = leaf y → x = y)
    (bare : ∀ x, (leaf x).children = []) (leaves : ∀ x, names (leaf x) = [x])
    (levels : ∀ n, (∀ x, n ≠ leaf x) → names n = n.children.flatMap names) (n : Node) :
    n.Enumerates leaf (names n) := by
  refine Ascends.all (P := fun n => n.Enumerates leaf (names n)) (fun n below => ?_) n
  by_cases isLeaf : ∃ x, n = leaf x
  · obtain ⟨x, rfl⟩ := isLeaf
    refine ⟨[([], x)], (leaves x).symm, List.pairwise_singleton _ _, fun position name => ?_⟩
    cases position with
    | nil =>
        simp only [at?, List.mem_singleton, Prod.mk.injEq, true_and, Option.some.injEq]
        exact ⟨fun same => by rw [same], fun same => (apart _ _ same).symm⟩
    | cons i position => simp [at?, bare]
  · have inner (x : String) : n ≠ leaf x := fun same => isLeaf ⟨x, same⟩
    obtain ⟨sites, listed, order, there⟩ := enumerates_list below 0
    refine ⟨sites, ?_, order, fun position name => ?_⟩
    · rw [listed, levels n inner]
    · rw [there]
      cases position with
      | nil => simp [at?, inner]
      | cons i position => simp [at?]

end Node

/-! ## What the names of a node are -/

namespace Node

/-- The names that are bound in the node. -/
def boundNames : Node → List String
  | root body => boundInBody body
  | stmt nested s => s.bound nested
  | alternative rest => rest.bound
  | arm a => boundInExprs a.patterns ++ boundInBlock a.body
  | expr e => e.bound
  | bound name => [name]
  | outer _ => []

/-- The names that are declared `outer` in the node. -/
def outerNames : Node → List String
  | root body => outerInBlock body
  | stmt _ s => s.outerNames
  | alternative rest => rest.outerNames
  | arm a => outerInBlock a.body
  | expr _ | bound _ => []
  | outer name => [name]

theorem boundInExprs_eq (es : List Expr) :
    boundInExprs es = (es.map expr).flatMap boundNames := by
  induction es with
  | nil => rfl
  | cons e es ih => simp [boundInExprs, ih, boundNames]

theorem boundInEntries_eq (es : List (Expr × Expr)) :
    boundInEntries es =
      (es.flatMap fun entry => [expr entry.1, expr entry.2]).flatMap boundNames := by
  induction es with
  | nil => rfl
  | cons entry es ih => simp [boundInEntries, ih, boundNames]

theorem boundInBlock_eq (body : List Stmt) :
    boundInBlock body = (block body).flatMap boundNames := by
  induction body with
  | nil => rfl
  | cons s body ih => simp [boundInBlock, ih, block, boundNames]

theorem boundInArms_eq (arms : List Arm) :
    boundInArms arms = (arms.map arm).flatMap boundNames := by
  induction arms with
  | nil => rfl
  | cons a arms ih =>
      obtain ⟨patterns, body⟩ := a
      simp [boundInArms, ih, boundNames, Arm.patterns, Arm.body]

/-- What a node binds is bound by what stands in it, in the same order. -/
theorem boundNames_eq (n : Node) (inner : ∀ x, n ≠ bound x) :
    n.boundNames = n.children.flatMap boundNames := by
  cases n with
  | root body => simp [boundNames, children, boundInBody, List.flatMap_map]
  | stmt nested s =>
      cases s with
      | func name params body => cases nested <;> simp [boundNames, children, Stmt.bound]
      | _ =>
          simp [boundNames, children, Stmt.bound, boundInBlock_eq, boundInArms_eq, List.flatMap_map]
  | alternative rest =>
      cases rest <;> simp [boundNames, children, Alternative.bound, boundInBlock_eq]
  | arm a => simp [boundNames, children, boundInExprs_eq, boundInBlock_eq]
  | expr e =>
      cases e with
      | assign op target value =>
          cases op <;> cases target <;> simp [boundNames, children, Expr.bound]
      | _ => simp [boundNames, children, Expr.bound, boundInExprs_eq, boundInEntries_eq]
  | bound name => exact absurd rfl (inner name)
  | outer name => rfl

theorem outerInBlock_eq (body : List Stmt) :
    outerInBlock body = (block body).flatMap outerNames := by
  induction body with
  | nil => rfl
  | cons s body ih => simp [outerInBlock, ih, block, outerNames]

theorem outerInArms_eq (arms : List Arm) :
    outerInArms arms = (arms.map arm).flatMap outerNames := by
  induction arms with
  | nil => rfl
  | cons a arms ih =>
      obtain ⟨patterns, body⟩ := a
      simp [outerInArms, ih, outerNames, Arm.body]

/-- What a node declares `outer` is declared by what stands in it, in the same order. -/
theorem outerNames_eq (n : Node) (inner : ∀ x, n ≠ outer x) :
    n.outerNames = n.children.flatMap outerNames := by
  cases n with
  | root body =>
      rw [outerNames, outerInBlock_eq, children]
      simp [block, List.flatMap_map, outerNames]
  | stmt nested s =>
      cases s with
      | func name params body => cases nested <;> simp [outerNames, children, Stmt.outerNames]
      | _ =>
          simp [outerNames, children, Stmt.outerNames, outerInBlock_eq, outerInArms_eq,
            List.flatMap_map]
  | alternative rest =>
      cases rest <;> simp [outerNames, children, Alternative.outerNames, outerInBlock_eq]
  | arm a => simp [outerNames, children, outerInBlock_eq, List.flatMap_map]
  | expr e =>
      cases e with
      | assign op target value => cases op <;> cases target <;> simp [outerNames, children]
      | _ => simp [outerNames, children, List.flatMap_map, List.flatMap_assoc]
  | bound name => rfl
  | outer name => exact absurd rfl (inner name)

/-- The names of a body are enumerated in source order. -/
theorem enumerates_boundInBody (body : List Stmt) :
    (root body).Enumerates bound (boundInBody body) :=
  enumerates boundNames (fun _ _ same => by cases same; rfl) (fun _ => rfl)
    (fun _ => rfl) boundNames_eq (root body)

theorem enumerates_outerInBlock (body : List Stmt) :
    (root body).Enumerates outer (outerInBlock body) :=
  enumerates outerNames (fun _ _ same => by cases same; rfl) (fun _ => rfl)
    (fun _ => rfl) outerNames_eq (root body)

/-- What is enumerated is what has a position. -/
theorem Enumerates.mem_iff {n : Node} {names : List String} (h : n.Enumerates leaf names)
    {x : String} : x ∈ names ↔ ∃ position, n.at? position = some (leaf x) := by
  obtain ⟨sites, rfl, -, there⟩ := h
  simp only [← there, List.mem_map, Prod.exists, exists_eq_right]

end Node

/-! ## Locals -/

/-- Each of the names once. -/
theorem nodup_eraseDups : ∀ names : List String, names.eraseDups.Nodup
  | [] => .nil
  | x :: rest => by
      rw [List.eraseDups_cons]
      refine List.nodup_cons.mpr ⟨fun h => ?_, nodup_eraseDups _⟩
      simpa using List.of_mem_filter (List.mem_eraseDups.mp h)
termination_by names => names.length
decreasing_by exact Nat.lt_succ_of_le (List.length_filter_le _ _)

theorem nodup_locals (params : List String) (body : List Stmt) : (locals params body).Nodup :=
  (nodup_eraseDups _).filter _

/-- A local is bound in the body, and is no parameter, not declared `outer` and no function
of the body. -/
theorem mem_locals {params : List String} {body : List Stmt} {x : String} :
    x ∈ locals params body ↔ x ∈ boundInBody body ∧ x ∉ params ∧ x ∉ outerInBlock body ∧
      x ∉ (functionsOf body).map Function.name := by
  simp only [locals, List.mem_filter, List.mem_eraseDups, Bool.not_eq_true', List.contains_eq_mem,
    decide_eq_false_iff_not, List.mem_append, not_or, and_assoc]

/-- Without repetitions, a name stands in front of another one when some position of it is in
front of every position of the other one. -/
theorem pairwise_eraseDups (sites : List (Position × String))
    (order : sites.Pairwise fun a b => a.1 < b.1) :
    (sites.map Prod.snd).eraseDups.Pairwise fun x y =>
      ∃ position, (position, x) ∈ sites ∧ ∀ other, (other, y) ∈ sites → position < other := by
  match sites with
  | [] => exact .nil
  | (first, x) :: rest =>
      obtain ⟨ahead, order⟩ := List.pairwise_cons.mp order
      have shorter : (rest.filter fun site => !site.2 == x).length < rest.length + 1 :=
        Nat.lt_succ_of_le (List.length_filter_le _ _)
      have ih := pairwise_eraseDups (rest.filter fun site => !site.2 == x) (order.filter _)
      have others : (rest.map Prod.snd).filter (fun name => !name == x) =
          (rest.filter fun site => !site.2 == x).map Prod.snd := by
        rw [List.filter_map]
        rfl
      have differs {y : String}
          (h : y ∈ ((rest.filter fun site => !site.2 == x).map Prod.snd).eraseDups) : y ≠ x := by
        obtain ⟨site, hs, rfl⟩ := List.mem_map.mp (List.mem_eraseDups.mp h)
        simpa using List.of_mem_filter hs
      rw [List.map_cons, List.eraseDups_cons, others]
      refine List.pairwise_cons.mpr ⟨fun y hy => ?_, ih.imp_of_mem fun _ hz before => ?_⟩
      · refine ⟨first, List.mem_cons_self, fun other there => ?_⟩
        rcases List.mem_cons.mp there with same | there
        · exact absurd (Prod.mk.inj same).2 (differs hy)
        · exact ahead _ there
      · obtain ⟨position, there, before⟩ := before
        refine ⟨position, List.mem_cons_of_mem _ (List.mem_of_mem_filter there), ?_⟩
        intro other found
        rcases List.mem_cons.mp found with same | found
        · exact absurd (Prod.mk.inj same).2 (differs hz)
        · exact before other (List.mem_filter.mpr ⟨found, by simpa using differs hz⟩)
termination_by sites.length

/-- The locals of a body are the names that are bound somewhere in it, each once and in the
order of the first position where it is bound, but for parameters, names that are declared
`outer` anywhere in the body, and the functions of the body itself. -/
theorem locals_exact (params : List String) (body : List Stmt) :
    (locals params body).Nodup ∧
    (∀ x, x ∈ locals params body ↔
      (∃ position, (Node.root body).at? position = some (.bound x)) ∧ x ∉ params ∧
      (¬ ∃ position, (Node.root body).at? position = some (.outer x)) ∧
      ∀ parameters inner, .func x parameters inner ∉ body) ∧
    (locals params body).Pairwise fun x y =>
      ∃ position, (Node.root body).at? position = some (.bound x) ∧
        ∀ other, (Node.root body).at? other = some (.bound y) → position < other := by
  refine ⟨nodup_locals params body, fun x => ?_, ?_⟩
  · have functions : x ∉ (functionsOf body).map Function.name ↔
        ∀ parameters inner, .func x parameters inner ∉ body := by
      constructor
      · exact fun apart ps b h => apart (List.mem_map.mpr ⟨⟨x, ps, b⟩, mem_functionsOf.mpr h, rfl⟩)
      · intro apart h
        obtain ⟨f, hf, rfl⟩ := List.mem_map.mp h
        exact apart f.params f.body (mem_functionsOf.mp hf)
    rw [mem_locals, (Node.enumerates_boundInBody body).mem_iff,
      (Node.enumerates_outerInBlock body).mem_iff, functions]
  · obtain ⟨sites, listed, order, there⟩ := Node.enumerates_boundInBody body
    refine List.Pairwise.filter _ ?_
    rw [← listed]
    refine (pairwise_eraseDups sites order).imp fun before => ?_
    simpa only [there] using before

example : locals ["p"]
    [.expr (.assign none (.ident "b") (.assign none (.ident "a") (.ident "p"))),
      .cond (.assign none (.ident "p") (.ident "b")) [.func "f" [] [], .outer ["a"]] .none] =
    ["b", "f"] := by decide

end ScriptLang
