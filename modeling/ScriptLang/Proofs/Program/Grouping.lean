import ScriptLang.Program.Basic

/-!
# How operators group their operands

Operands with binary operators between them, and the trees that they may be grouped to.
In a proper tree an operator has only tighter ones next to it, but for those that bind as
tightly, which stand to its left, or to its right where the operator groups to the right.

There is one proper tree for each series of operands: of two operators that could be at
the top, each would have to stand on a side of the other where it is not allowed.
-/

namespace ScriptLang

namespace BinaryOp

/-- An operator that may be at the top of the left operand. -/
def AllowsLeft (op child : BinaryOp) : Prop :=
  op.precedence < child.precedence ∨ op.precedence = child.precedence ∧ op ≠ .pow

/-- An operator that may be at the top of the right operand. -/
def AllowsRight (op child : BinaryOp) : Prop :=
  op.precedence < child.precedence ∨ op.precedence = child.precedence ∧ op = .pow

variable {op child other : BinaryOp}

theorem precedence_le (op : BinaryOp) : op.precedence ≤ 11 := by cases op <;> decide

theorem two_le_precedence (op : BinaryOp) : 2 ≤ op.precedence := by cases op <;> decide

/-- Only the power operator binds most tightly. -/
theorem precedence_eq_iff : op.precedence = 11 ↔ op = .pow := by cases op <;> decide

theorem AllowsLeft.mono (h : op.AllowsLeft child) (tighter : child.precedence ≤ other.precedence) :
    op.AllowsLeft other := by
  rcases h with below | ⟨same, apart⟩
  · exact .inl (Nat.lt_of_lt_of_le below tighter)
  · exact (Nat.lt_or_eq_of_le (same ▸ tighter)).imp_right fun same => ⟨same, apart⟩

theorem AllowsRight.mono (h : op.AllowsRight child)
    (tighter : child.precedence ≤ other.precedence) : op.AllowsRight other := by
  rcases h with below | ⟨same, pow⟩
  · exact .inl (Nat.lt_of_lt_of_le below tighter)
  · exact (Nat.lt_or_eq_of_le (same ▸ tighter)).imp_right fun same => ⟨same, pow⟩

/-- Of two operators one behind the other, only one may be above the other one. -/
theorem AllowsRight.not_allowsLeft (h : op.AllowsRight other) : ¬ other.AllowsLeft op := by
  have pow (same : op.precedence = other.precedence) : op = .pow → other = .pow := by
    rw [← precedence_eq_iff, ← precedence_eq_iff, same]
    exact id
  rintro (looser | ⟨same, apart⟩)
  · rcases h with tighter | ⟨same, -⟩ <;> omega
  · rcases h with tighter | ⟨-, right⟩
    · omega
    · exact apart (pow same.symm right)

end BinaryOp

/-- Operands with binary operators between them. -/
structure Series where
  first : Expr
  rest : List (BinaryOp × Expr)

/-- A tree of binary operators. What stands inside of an operand does not count. -/
inductive Grouping where
  | operand (e : Expr)
  | node (op : BinaryOp) (left right : Grouping)

namespace Grouping

/-- The expression that the tree stands for. -/
def toExpr : Grouping → Expr
  | operand e => e
  | node op left right => .binary op left.toExpr right.toExpr

/-- The leftmost operand. -/
def first : Grouping → Expr
  | operand e => e
  | node _ left _ => left.first

/-- What follows the leftmost operand. -/
def rest : Grouping → List (BinaryOp × Expr)
  | operand _ => []
  | node op left right => left.rest ++ (op, right.first) :: right.rest

/-- The tree read from left to right. -/
def inorder (g : Grouping) : Series := ⟨g.first, g.rest⟩

/-- The operator at the top. -/
def top? : Grouping → Option BinaryOp
  | operand _ => none
  | node op _ _ => some op

theorem no_top {e : Expr} {P : BinaryOp → Prop} : ∀ op ∈ (operand e).top?, P op := by
  simp [top?]

/-- Every operator allows the ones at the top of its operands. -/
def Proper : Grouping → Prop
  | operand _ => True
  | node op left right => (∀ child ∈ left.top?, op.AllowsLeft child) ∧
      (∀ child ∈ right.top?, op.AllowsRight child) ∧ left.Proper ∧ right.Proper

variable {g g' left right : Grouping} {op : BinaryOp}

/-- The operator at the top of a proper tree is one of the loosest. -/
theorem Proper.top_le (proper : g.Proper) :
    ∀ x ∈ g.rest, ∃ top ∈ g.top?, top.precedence ≤ x.1.precedence := by
  induction g with
  | operand e => exact nofun
  | node op left right ihLeft ihRight =>
      obtain ⟨allowsLeft, allowsRight, properLeft, properRight⟩ := proper
      intro x hx
      refine ⟨op, rfl, ?_⟩
      rcases List.mem_append.mp hx with hx | hx
      · obtain ⟨top, htop, le⟩ := ihLeft properLeft x hx
        rcases allowsLeft top htop with below | ⟨same, -⟩ <;> omega
      rcases List.mem_cons.mp hx with rfl | hx
      · exact Nat.le_refl _
      · obtain ⟨top, htop, le⟩ := ihRight properRight x hx
        rcases allowsRight top htop with below | ⟨same, -⟩ <;> omega

/-- An operator allows all operators of its left operand. -/
theorem Proper.allowsLeft (proper : (node op left right).Proper) :
    ∀ x ∈ left.rest, op.AllowsLeft x.1 := by
  intro x hx
  obtain ⟨allows, -, properLeft, -⟩ := proper
  obtain ⟨top, htop, le⟩ := properLeft.top_le x hx
  exact (allows top htop).mono le

/-- An operator allows all operators of its right operand. -/
theorem Proper.allowsRight (proper : (node op left right).Proper) :
    ∀ x ∈ right.rest, op.AllowsRight x.1 := by
  intro x hx
  obtain ⟨-, allows, -, properRight⟩ := proper
  obtain ⟨top, htop, le⟩ := properRight.top_le x hx
  exact (allows top htop).mono le

/-- Where two lists with a middle are the same, the middles are, unless the first one
stands behind the second one or in front of it. -/
theorem append_cons_cases {α : Type} {as bs as' bs' : List α} {a a' : α}
    (same : as ++ a :: bs = as' ++ a' :: bs') :
    (as = as' ∧ a = a' ∧ bs = bs') ∨ (a ∈ as' ∧ a' ∈ bs) ∨ (a' ∈ as ∧ a ∈ bs') := by
  rcases List.append_eq_append_iff.mp same with ⟨mid, rfl, tail⟩ | ⟨mid, rfl, tail⟩
  · cases mid with
    | nil =>
        obtain ⟨rfl, rfl⟩ := List.cons.inj tail
        exact .inl ⟨(List.append_nil _).symm, rfl, rfl⟩
    | cons x mid =>
        obtain ⟨rfl, rfl⟩ := List.cons.inj tail
        exact .inr (.inl (by simp))
  · cases mid with
    | nil =>
        obtain ⟨rfl, rfl⟩ := List.cons.inj tail
        exact .inl ⟨List.append_nil _, rfl, rfl⟩
    | cons x mid =>
        obtain ⟨rfl, rfl⟩ := List.cons.inj tail
        exact .inr (.inr (by simp))

/-- A series has at most one proper tree. -/
theorem Proper.unique (proper : g.Proper) (proper' : g'.Proper) (same : g.inorder = g'.inorder) :
    g = g' := by
  induction g generalizing g' with
  | operand e =>
      cases g' with
      | operand e' => exact congrArg operand (congrArg Series.first same)
      | node => exact absurd (congrArg Series.rest same) (by simp [inorder, rest])
  | node op left right ihLeft ihRight =>
      cases g' with
      | operand e' => exact absurd (congrArg Series.rest same) (by simp [inorder, rest])
      | node op' left' right' =>
          have firsts : left.first = left'.first := congrArg Series.first same
          have rests : left.rest ++ (op, right.first) :: right.rest =
              left'.rest ++ (op', right'.first) :: right'.rest := congrArg Series.rest same
          rcases append_cons_cases rests with ⟨lefts, middle, rights⟩ | ⟨before, behind⟩ |
            ⟨before, behind⟩
          · obtain ⟨rfl, heads⟩ := Prod.mk.inj middle
            obtain ⟨-, -, properLeft, properRight⟩ := proper
            obtain ⟨-, -, properLeft', properRight'⟩ := proper'
            rw [ihLeft properLeft properLeft' (by rw [inorder, firsts, lefts]; rfl),
              ihRight properRight properRight' (by rw [inorder, heads, rights]; rfl)]
          · exact absurd (proper'.allowsLeft _ before) (proper.allowsRight _ behind).not_allowsLeft
          · exact absurd (proper.allowsLeft _ before) (proper'.allowsRight _ behind).not_allowsLeft

end Grouping

end ScriptLang
