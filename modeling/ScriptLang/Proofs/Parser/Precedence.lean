import ScriptLang.Proofs.Parser.FirstError
import ScriptLang.Proofs.Program.Grouping

/-!
# Precedence climbing

A chain of operands and connectives is read as the proper tree of its last series of
operands, assigned to the targets in front of it from right to left. A series in front of
an assignment has to be a single operand that can be assigned to; the chain is refused at
the first assignment of which this does not hold.

Where `climb` goes on, what it has read so far is a proper tree, and the operator that
follows may stand above the one at its top.
-/

namespace ScriptLang

namespace BinaryOp

variable {op child : BinaryOp}

theorem one_lt_rightPrecedence (op : BinaryOp) : 1 < (Connective.binary op).rightPrecedence := by
  cases op <;> decide

theorem rightPrecedence_of_ne (apart : op ≠ .pow) :
    (Connective.binary op).rightPrecedence = op.precedence + 1 := by
  cases op with
  | pow => exact absurd rfl apart
  | _ => rfl

/-- An operator is part of the right operand when it binds tightly enough for it. -/
theorem allowsRight_iff :
    op.AllowsRight child ↔ (Connective.binary op).rightPrecedence ≤ child.precedence := by
  by_cases pow : op = .pow
  · subst pow
    simp only [AllowsRight, and_true]
    change 11 < child.precedence ∨ 11 = child.precedence ↔ 11 ≤ child.precedence
    omega
  · rw [AllowsRight, rightPrecedence_of_ne pow]
    exact ⟨fun h => h.resolve_right fun same => pow same.2, .inl⟩

/-- An operator stands above one to its left when it ends the right operand of that. -/
theorem allowsLeft_iff :
    op.AllowsLeft child ↔ op.precedence < (Connective.binary child).rightPrecedence := by
  have apart : op ≠ .pow ↔ op.precedence ≠ 11 := precedence_eq_iff.not.symm
  rw [AllowsLeft, apart]
  by_cases pow : child = .pow
  · subst pow
    change op.precedence < 11 ∨ op.precedence = 11 ∧ op.precedence ≠ 11 ↔ op.precedence < 11
    omega
  · have top := child.precedence_le
    have below := precedence_eq_iff.not.mpr pow
    rw [rightPrecedence_of_ne pow]
    omega

end BinaryOp

namespace Parser

/-! ## Chains of operands -/

/-- An operand, read with nesting for all tokens that are left, and what follows it. -/
def OperandAt (c : Cursor) (e : Expr) (c' : Cursor) : Prop :=
  (operand (8 * c.tokens.length)).run c = .ok (e, c')

/-- A connective and what follows it. -/
def ConnectiveAt (c : Cursor) (k : Connective) (c' : Cursor) : Prop :=
  Connective.ofToken? c.current = some k ∧ advance.run c = .ok (c.current, c')

/-- Binary operators with operands behind them, as many as there are. -/
inductive OperationsAt : Cursor → List (BinaryOp × Expr) → Cursor → Prop where
  | nil {c : Cursor} :
      (∀ op, Connective.ofToken? c.current ≠ some (.binary op)) → OperationsAt c [] c
  | cons {c c₁ c₂ c' : Cursor} {op : BinaryOp} {e : Expr} {rest : List (BinaryOp × Expr)} :
      ConnectiveAt c (.binary op) c₁ → OperandAt c₁ e c₂ → OperationsAt c₂ rest c' →
      OperationsAt c ((op, e) :: rest) c'

/-- Operands with binary operators between them, as many as there are. -/
def SeriesAt (c : Cursor) (s : Series) (c' : Cursor) : Prop :=
  ∃ m, OperandAt c s.first m ∧ OperationsAt m s.rest c'

/-- What stands to the left of an assignment operator, and the operator. -/
structure Assignment where
  target : Series
  update : Option BinaryOp
  sign : Token

/-- The target is an identifier or a subscript and nothing else. -/
def Assignment.Valid (a : Assignment) : Prop :=
  a.target.rest = [] ∧
    ((∃ name, a.target.first = .ident name) ∨ ∃ e index, a.target.first = .index e index)

/-- Series of operands with assignment operators between them, up to a token that is no
connective. -/
inductive ChainAt : Cursor → List Assignment → Series → Cursor → Prop where
  | value {c c' : Cursor} {s : Series} :
      SeriesAt c s c' → Connective.ofToken? c'.current = none → ChainAt c [] s c'
  | assign {c m c₁ c' : Cursor} {target s : Series} {update : Option BinaryOp}
      {rest : List Assignment} :
      SeriesAt c target m → ConnectiveAt m (.assign update) c₁ → ChainAt c₁ rest s c' →
      ChainAt c (⟨target, update, m.current⟩ :: rest) s c'

/-- The value assigned to the last target, the result to the one before it, and so on. -/
def assigned (targets : List Assignment) (value : Expr) : Expr :=
  targets.foldr (fun a value => .assign a.update a.target.first value) value

/-! ## Tokens that are left -/

variable {c c' m : Cursor} {e : Expr} {fuel least : Nat}

theorem OperandAt.run (h : OperandAt c e c') (ended : c.Ended)
    (enough : 8 * c.tokens.length ≤ fuel + 6) :
    (operand fuel).run c = .ok (e, c') ∧ c'.Ended ∧ c'.tokens.length < c.tokens.length := by
  have prompt (fuel : Nat) (enough : 8 * c.tokens.length ≤ fuel + 6) :=
    (promptExpressions fuel).operand c.tokens.length enough c ended le_rfl
  have run : (operand (8 * c.tokens.length)).run c = .ok (e, c') := h
  have here := prompt (8 * c.tokens.length) (by omega)
  rw [run] at here
  have granted := here.grants fuel
  obtain ⟨used, tokens, fault, left, -⟩ := here
  have positive : 0 < c.tokens.length := Nat.succ_pos _
  refine ⟨?_, ended.of_append tokens fault, by omega⟩
  rcases granted with same | deep
  · exact same
  · have settled := prompt fuel enough
    rw [deep] at settled
    exact settled.elim

theorem ConnectiveAt.left {k : Connective} (h : ConnectiveAt c k c') (ended : c.Ended) :
    c'.Ended ∧ c'.tokens.length < c.tokens.length := by
  obtain ⟨spelled, taken⟩ := h
  obtain ⟨tokens, fault⟩ :=
    tokens_of_advance ended (Connective.not_eof_of_ofToken? spelled) taken
  have left : c.tokens = [c.current] ++ c'.tokens := tokens
  exact ⟨ended.of_append left fault, by simp [left]⟩

/-! ## One step of climbing -/

variable {lhs rhs : Expr} {k : Connective}

theorem run_expression (h : OperandAt c e m) (ended : c.Ended)
    (enough : 8 * c.tokens.length ≤ fuel + 6) :
    (expression (fuel + 1) least).run c = (climb fuel least e).run m := by
  rw [expression, StateT.run_bind, (h.run ended enough).1]
  rfl

theorem run_peek_bind {α : Type} (p : Token → Parser α) (c : Cursor) :
    (peek >>= p).run c = (p c.current).run c := rfl

/-- Climbing ends in front of what is no connective. -/
theorem run_climb_none (h : Connective.ofToken? c.current = none) :
    (climb (fuel + 1) least lhs).run c = .ok (lhs, c) := by
  rw [climb, run_peek_bind, h]
  rfl

/-- Climbing ends in front of a connective that does not bind tightly enough. -/
theorem run_climb_loose (h : Connective.ofToken? c.current = some k)
    (loose : k.precedence < least) : (climb (fuel + 1) least lhs).run c = .ok (lhs, c) := by
  rw [climb, run_peek_bind, h]
  simp only [if_pos loose]
  rfl

/-- An assignment needs an operand that can be assigned to. -/
theorem run_climb_refuse {update : Option BinaryOp}
    (h : Connective.ofToken? c.current = some (.assign update)) (tight : least ≤ 1)
    (bad : lhs.isAssignable = false) : (climb (fuel + 1) least lhs).run c =
      .error (.refused ⟨c.current.line, c.current.text, .expected .assignableTarget⟩) := by
  have stays : ¬ (Connective.assign update).precedence < least := Nat.not_lt.mpr tight
  rw [climb, run_peek_bind, h]
  simp only [if_neg stays, bad]
  rfl

/-- Otherwise the right operand is read, and climbing goes on from what the connective makes
of both. -/
theorem run_climb_join {c₁ : Cursor} (h : ConnectiveAt c k c₁) (tight : least ≤ k.precedence)
    (fits : k.isAssign = true → lhs.isAssignable = true) : (climb (fuel + 1) least lhs).run c =
      (expression fuel k.rightPrecedence >>= fun rhs =>
        climb fuel least (k.join lhs rhs)).run c₁ := by
  obtain ⟨spelled, taken⟩ := h
  have assignable : (k.isAssign && !lhs.isAssignable) = false := by
    cases assign : k.isAssign with
    | false => rfl
    | true => simp [fits assign]
  rw [climb, run_peek_bind, spelled]
  simp only [if_neg (Nat.not_lt.mpr tight), assignable, Bool.false_eq_true, if_false]
  rw [StateT.run_bind, taken]
  rfl

/-! ## Climbing along a series -/

/-- Climbing ends where the next operator does not bind tightly enough, and in front of an
assignment where the bound is above that. -/
theorem run_climb_stop {later : List (BinaryOp × Expr)} (ops : OperationsAt c later c')
    (loose : ∀ x ∈ later.head?, x.1.precedence < least) (tight : 1 < least) :
    (climb (fuel + 1) least lhs).run c = .ok (lhs, c) := by
  cases ops with
  | nil other =>
      cases spelled : Connective.ofToken? c.current with
      | none => exact run_climb_none spelled
      | some k =>
          cases k with
          | binary op => exact absurd spelled (other op)
          | assign update => exact run_climb_loose spelled tight
  | cons connective => exact run_climb_loose connective.1 (loose _ rfl)

/-- What climbing with the bound `least` does with operators: from the tree `g` at the cursor
`c` with `rest` behind it, it comes to the tree `g'` at `m` with `later` behind it. -/
structure Gathers (least : Nat) (c : Cursor) (g : Grouping) (rest : List (BinaryOp × Expr))
    (m : Cursor) (g' : Grouping) (later : List (BinaryOp × Expr)) : Prop where
  proper : g'.Proper
  tight : ∀ top ∈ g'.top?, least ≤ top.precedence
  loose : ∀ x ∈ later.head?, x.1.precedence < least
  first : g'.first = g.first
  rest : g'.rest ++ later = g.rest ++ rest
  ended : m.Ended
  tokens : m.tokens.length ≤ c.tokens.length
  run : ∀ fuel, 8 * c.tokens.length ≤ fuel + 7 → ∃ fuel', 8 * m.tokens.length ≤ fuel' + 7 ∧
    (climb fuel least g.toExpr).run c = (climb fuel' least g'.toExpr).run m

/-- From a proper tree climbing comes to another one. Its operators bind as tightly as the
bound, and the operator that follows does not. -/
theorem exists_gathers (least : Nat) {rest : List (BinaryOp × Expr)} {g : Grouping}
    (ops : OperationsAt c rest c') (ended : c.Ended) (proper : g.Proper)
    (tight : ∀ top ∈ g.top?, least ≤ top.precedence)
    (above : ∀ top ∈ g.top?, ∀ x ∈ rest.head?, x.1.AllowsLeft top) :
    ∃ m g' later, OperationsAt m later c' ∧ Gathers least c g rest m g' later := by
  induction size : rest.length using Nat.strong_induction_on generalizing c least rest g with
  | _ n ih =>
      subst size
      have stay (loose : ∀ x ∈ rest.head?, x.1.precedence < least) :
          ∃ m g' later, OperationsAt m later c' ∧ Gathers least c g rest m g' later :=
        ⟨c, g, rest, ops, proper, tight, loose, rfl, rfl, ended, le_rfl,
          fun fuel enough => ⟨fuel, enough, rfl⟩⟩
      cases ops with
      | nil => exact stay (by simp)
      | @cons _ c₁ c₂ _ op e rest connective operand ops =>
          by_cases loose : op.precedence < least
          · refine stay ?_
            rintro x ⟨⟩
            exact loose
          have fits : least ≤ (Connective.binary op).precedence := Nat.le_of_not_lt loose
          obtain ⟨ended₁, left₁⟩ := connective.left ended
          obtain ⟨-, ended₂, left₂⟩ := operand.run ended₁ (Nat.le_add_right _ 6)
          -- the right operand
          obtain ⟨m₁, right, later₁, ops₁, gathers₁⟩ :=
            ih rest.length (Nat.lt_succ_self _) (Connective.binary op).rightPrecedence
              (g := .operand e) ops ended₂ trivial Grouping.no_top Grouping.no_top rfl
          have shorter : later₁.length ≤ rest.length := by
            have lengths := congrArg List.length gathers₁.rest
            simp only [Grouping.rest, List.length_append, List.length_nil] at lengths
            omega
          have properNode : (Grouping.node op g right).Proper :=
            ⟨fun top h => above top h _ rfl,
              fun top h => BinaryOp.allowsRight_iff.mpr (gathers₁.tight top h), proper,
              gathers₁.proper⟩
          -- what follows the operator with its two operands
          obtain ⟨m, g', later, ops', gathers⟩ :=
            ih later₁.length (Nat.lt_succ_of_le shorter) least (g := .node op g right) ops₁
              gathers₁.ended properNode (by rintro top ⟨⟩; exact fits)
              (by rintro top ⟨⟩ x hx; exact BinaryOp.allowsLeft_iff.mpr (gathers₁.loose x hx)) rfl
          have positive : 0 < m₁.tokens.length := Nat.succ_pos _
          have tokens₁ := gathers₁.tokens
          have tokens := gathers.tokens
          refine ⟨m, g', later, ops', gathers.proper, gathers.tight, gathers.loose, gathers.first,
            ?_, gathers.ended, by omega, fun fuel enough => ?_⟩
          · rw [gathers.rest, Grouping.rest, List.append_assoc, List.cons_append, gathers₁.rest,
              gathers₁.first]
            rfl
          · obtain ⟨fuel, rfl⟩ : ∃ f, fuel = f + 2 := ⟨fuel - 2, by omega⟩
            obtain ⟨fuel₁, enough₁, run₁⟩ := gathers₁.run fuel (by omega)
            obtain ⟨fuel₁, rfl⟩ : ∃ f, fuel₁ = f + 1 := ⟨fuel₁ - 1, by omega⟩
            have one := op.one_lt_rightPrecedence
            have read : (expression (fuel + 1) (Connective.binary op).rightPrecedence).run c₁ =
                .ok (right.toExpr, m₁) := by
              rw [run_expression operand ended₁ (by omega)]
              exact run₁.trans (run_climb_stop ops₁ gathers₁.loose one)
            obtain ⟨fuel₂, enough₂, run₂⟩ := gathers.run (fuel + 1) (by omega)
            refine ⟨fuel₂, enough₂, ?_⟩
            rw [run_climb_join connective fits (absurd · Bool.false_ne_true), StateT.run_bind, read]
            exact run₂

/-- A series is read as a proper tree, and climbing has come to its end. -/
theorem SeriesAt.run {s : Series} (h : SeriesAt c s c') (ended : c.Ended) (lowest : least ≤ 2) :
    ∃ g : Grouping, g.inorder = s ∧ g.Proper ∧ c'.Ended ∧ c'.tokens.length < c.tokens.length ∧
      ∀ fuel, 8 * c.tokens.length ≤ fuel + 5 → ∃ fuel', 8 * c'.tokens.length ≤ fuel' + 8 ∧
        (expression fuel least).run c = (climb (fuel' + 1) least g.toExpr).run c' := by
  obtain ⟨m, operand, ops⟩ := h
  obtain ⟨-, ended₁, left⟩ := operand.run ended (Nat.le_add_right _ 6)
  obtain ⟨m', g, later, ops', gathers⟩ :=
    exists_gathers least (g := .operand s.first) ops ended₁ trivial Grouping.no_top Grouping.no_top
  have rests := gathers.rest
  have tokens := gathers.tokens
  have positive : 0 < m'.tokens.length := Nat.succ_pos _
  -- no operator is too loose for the bound, so nothing is left
  cases ops' with
  | @cons _ _ _ _ op =>
      exact absurd (gathers.loose _ rfl) (Nat.not_lt.mpr (lowest.trans op.two_le_precedence))
  | nil =>
      refine ⟨g, ?_, gathers.proper, gathers.ended, by omega, fun fuel enough => ?_⟩
      · rw [List.append_nil] at rests
        rw [Grouping.inorder, rests, gathers.first]
        rfl
      · obtain ⟨fuel, rfl⟩ : ∃ f, fuel = f + 1 := ⟨fuel - 1, by omega⟩
        obtain ⟨fuel', enough', run⟩ := gathers.run fuel (by omega)
        obtain ⟨fuel', rfl⟩ : ∃ f, fuel' = f + 1 := ⟨fuel' - 1, by omega⟩
        exact ⟨fuel', by omega, (run_expression operand ended (by omega)).trans run⟩

/-! ## Assignments along a chain -/

/-- Whether a target is valid can be told from the tree that it is read as. -/
theorem valid_iff {a : Assignment} {g : Grouping} (read : g.inorder = a.target) :
    a.Valid ↔ g.toExpr.isAssignable = true := by
  rw [Assignment.Valid, ← read]
  cases g with
  | operand e => cases e <;> simp [Grouping.inorder, Grouping.rest, Grouping.first,
      Grouping.toExpr, Expr.isAssignable]
  | node op left right => simp [Grouping.inorder, Grouping.rest, Grouping.toExpr, Expr.isAssignable]

theorem Assignment.Valid.toExpr_eq {a : Assignment} {g : Grouping} (valid : a.Valid)
    (read : g.inorder = a.target) : g.toExpr = a.target.first := by
  rw [← read]
  cases g with
  | operand e => rfl
  | node op left right =>
      have single := valid.1
      rw [← read] at single
      simp [Grouping.inorder, Grouping.rest] at single

/-- The answer at a chain: the assignments, or the first one whose target is not valid. -/
structure Answers (targets : List Assignment) (value : Expr) (c' : Cursor)
    (answer : Except Stop (Expr × Cursor)) : Prop where
  ok : (∀ a ∈ targets, a.Valid) → answer = .ok (assigned targets value, c')
  error : ∀ before a after, targets = before ++ a :: after → (∀ b ∈ before, b.Valid) →
    ¬ a.Valid → answer =
      .error (.refused ⟨a.sign.line, a.sign.text, .expected .assignableTarget⟩)

theorem ChainAt.none {targets : List Assignment} {s : Series} (h : ChainAt c targets s c') :
    Connective.ofToken? c'.current = none := by
  induction h with
  | value _ other => exact other
  | assign _ _ _ ih => exact ih

/-- A chain is answered by its assignments, whatever the bound, as long as it lets
assignments through. -/
theorem ChainAt.run {targets : List Assignment} {s : Series} (h : ChainAt c targets s c')
    (ended : c.Ended) : ∃ value : Grouping, value.inorder = s ∧ value.Proper ∧
      ∀ least ≤ 1, ∀ fuel, 8 * c.tokens.length ≤ fuel + 5 →
        Answers targets value.toExpr c' ((expression fuel least).run c) := by
  induction h with
  | value series other =>
      obtain ⟨value, read, proper, -⟩ := series.run ended (Nat.zero_le 2)
      refine ⟨value, read, proper, fun least lowest fuel enough => ⟨fun _ => ?_, ?_⟩⟩
      · obtain ⟨g, read', proper', -, -, run⟩ := series.run ended (lowest.trans (by decide))
        obtain rfl := proper'.unique proper (read'.trans read.symm)
        obtain ⟨fuel', -, run⟩ := run fuel enough
        exact run.trans (run_climb_none other)
      · intro before a after cut
        exact absurd (congrArg List.length cut) (by simp)
  | @assign c m c₁ c' target s update rest series connective chain ih =>
      obtain ⟨-, -, -, ended', -⟩ := series.run ended (Nat.zero_le 2)
      obtain ⟨ended₁, left⟩ := connective.left ended'
      obtain ⟨value, read, proper, answers⟩ := ih ended₁
      refine ⟨value, read, proper, fun least lowest fuel enough => ?_⟩
      obtain ⟨g, readTarget, -, -, -, run⟩ := series.run ended (lowest.trans (by decide))
      obtain ⟨fuel', enough', run⟩ := run fuel enough
      have next := answers 1 le_rfl fuel' (by omega)
      have positive : 0 < c₁.tokens.length := Nat.succ_pos _
      obtain ⟨fuel', rfl⟩ : ∃ f, fuel' = f + 1 := ⟨fuel' - 1, by omega⟩
      rw [run]
      by_cases valid : Assignment.Valid ⟨target, update, m.current⟩
      · -- the assignment takes all of the chain that follows it
        rw [run_climb_join connective lowest fun _ => (valid_iff readTarget).mp valid,
          StateT.run_bind, valid.toExpr_eq readTarget]
        refine ⟨fun all => ?_, fun before a after cut fine bad => ?_⟩
        · have value := next.ok fun a ha => all a (List.mem_cons_of_mem _ ha)
          rw [show (Connective.assign update).rightPrecedence = 1 from rfl, value]
          exact run_climb_none chain.none
        · cases before with
          | nil =>
              obtain ⟨rfl, -⟩ := List.cons.inj cut
              exact absurd valid bad
          | cons b before =>
              have stopped := next.error before a after (List.cons.inj cut).2
                (fun b hb => fine b (List.mem_cons_of_mem _ hb)) bad
              rw [show (Connective.assign update).rightPrecedence = 1 from rfl, stopped]
              rfl
      · refine ⟨fun all => absurd (all _ List.mem_cons_self) valid, ?_⟩
        intro before a after cut fine bad
        cases before with
        | nil =>
            obtain ⟨rfl, -⟩ := List.cons.inj cut
            exact run_climb_refuse connective.1 lowest
              (Bool.eq_false_iff.mpr fun fits => valid ((valid_iff readTarget).mpr fits))
        | cons b before =>
            obtain ⟨rfl, -⟩ := List.cons.inj cut
            exact absurd (fine _ List.mem_cons_self) valid

/-- The first assignment of which something does not hold. -/
theorem exists_first_not {α : Type} {P : α → Prop} {as : List α} (h : ¬ ∀ a ∈ as, P a) :
    ∃ before a after, as = before ++ a :: after ∧ (∀ b ∈ before, P b) ∧ ¬ P a := by
  induction as with
  | nil => exact absurd nofun h
  | cons a as ih =>
      by_cases holds : P a
      · obtain ⟨before, b, after, rfl, fine, bad⟩ :=
          ih fun all => h (List.forall_mem_cons.mpr ⟨holds, all⟩)
        exact ⟨a :: before, b, after, rfl, List.forall_mem_cons.mpr ⟨holds, fine⟩, bad⟩
      · exact ⟨[], a, as, rfl, nofun, holds⟩

/-- A chain is read as the one proper tree of its last series of operands, assigned to the
targets in front of it. This succeeds when each of these is an identifier or a subscript, and
otherwise the chain is refused at the first assignment operator behind anything else. -/
theorem expression_of_chain {c c' : Cursor} {targets : List Assignment} {last : Series}
    (chain : ChainAt c targets last c') (ended : c.Ended) {fuel : Nat}
    (enough : 8 * c.tokens.length ≤ fuel + 5) :
    ∃ value : Grouping, (∀ g : Grouping, g.inorder = last ∧ g.Proper ↔ g = value) ∧
      (∀ r, (expression fuel 0).run c = .ok r ↔
        (∀ a ∈ targets, a.Valid) ∧ r = (assigned targets value.toExpr, c')) ∧
      ∀ before a after, targets = before ++ a :: after → (∀ b ∈ before, b.Valid) → ¬ a.Valid →
        (expression fuel 0).run c =
          .error (.refused ⟨a.sign.line, a.sign.text, .expected .assignableTarget⟩) := by
  obtain ⟨value, read, proper, answers⟩ := chain.run ended
  have answer := answers 0 (Nat.zero_le 1) fuel enough
  refine ⟨value, fun g => ⟨?_, ?_⟩, fun r => ⟨fun run => ?_, ?_⟩, answer.error⟩
  · rintro ⟨read', proper'⟩
    exact proper'.unique proper (read'.trans read.symm)
  · rintro rfl
    exact ⟨read, proper⟩
  · by_cases all : ∀ a ∈ targets, a.Valid
    · rw [answer.ok all] at run
      exact ⟨all, (Except.ok.inj run).symm⟩
    · obtain ⟨before, a, after, cut, fine, bad⟩ := exists_first_not all
      rw [answer.error before a after cut fine bad] at run
      cases run
  · rintro ⟨all, rfl⟩
    exact answer.ok all

/-- The tokens of `x = y -= a - b - c ** d ** e`, from one of them on. -/
def updatesFrom (k : Nat) : Cursor :=
  let spellings := ["x", "=", "y", "-=", "a", "-", "b", "-", "c", "**", "d", "**", "e"]
  let marks := ["=", "-=", "-", "**"]
  let tokens : List Token := (spellings.map fun text =>
    ⟨if marks.contains text then .punct else .word, text, 1⟩) ++ [⟨.newline, "\n", 1⟩]
  match tokens.drop k with
  | t :: rest => ⟨t, rest ++ [Token.endOfText 2], none⟩
  | [] => ⟨Token.endOfText 2, [], none⟩

theorem expression_of_chain_updates :
    let targets : List Assignment := [⟨⟨.ident "x", []⟩, none, ⟨.punct, "=", 1⟩⟩,
      ⟨⟨.ident "y", []⟩, some .sub, ⟨.punct, "-=", 1⟩⟩]
    let last : Series := ⟨.ident "a", [(.sub, .ident "b"), (.sub, .ident "c"),
      (.pow, .ident "d"), (.pow, .ident "e")]⟩
    ∃ c', ChainAt (updatesFrom 0) targets last c' ∧ (updatesFrom 0).Ended ∧
    8 * (updatesFrom 0).tokens.length ≤ 120 + 5 ∧
    ∃ value : Grouping, (∀ g : Grouping, g.inorder = last ∧ g.Proper ↔ g = value) ∧
      (∀ r, (expression 120 0).run (updatesFrom 0) = .ok r ↔
        (∀ a ∈ targets, a.Valid) ∧ r = (assigned targets value.toExpr, c')) ∧
      ∀ before a after, targets = before ++ a :: after → (∀ b ∈ before, b.Valid) → ¬ a.Valid →
        (expression 120 0).run (updatesFrom 0) =
          .error (.refused ⟨a.sign.line, a.sign.text, .expected .assignableTarget⟩) := by
  intro targets last
  have ended : (updatesFrom 0).Ended := fun _ => ⟨Token.endOfText 2, rfl, rfl⟩
  have stop (k : Nat) (h : ((Connective.ofToken? (updatesFrom k).current).all
      Connective.isAssign) = true) : OperationsAt (updatesFrom k) [] (updatesFrom k) :=
    .nil fun op spelled => by simp [spelled, Connective.isAssign] at h
  have link {k : Nat} {op : BinaryOp} {e : Expr} {rest : List (BinaryOp × Expr)}
      (sign : ConnectiveAt (updatesFrom k) (.binary op) (updatesFrom (k + 1)))
      (operand : OperandAt (updatesFrom (k + 1)) e (updatesFrom (k + 2)))
      (next : OperationsAt (updatesFrom (k + 2)) rest (updatesFrom 13)) :
      OperationsAt (updatesFrom k) ((op, e) :: rest) (updatesFrom 13) := .cons sign operand next
  have value : SeriesAt (updatesFrom 4) last (updatesFrom 13) :=
    ⟨updatesFrom 5, rfl, link ⟨rfl, rfl⟩ rfl <| link ⟨rfl, rfl⟩ rfl <| link ⟨rfl, rfl⟩ rfl <|
      link ⟨rfl, rfl⟩ rfl <| stop 13 rfl⟩
  have first : SeriesAt (updatesFrom 0) ⟨.ident "x", []⟩ (updatesFrom 1) :=
    ⟨updatesFrom 1, rfl, stop 1 rfl⟩
  have second : SeriesAt (updatesFrom 2) ⟨.ident "y", []⟩ (updatesFrom 3) :=
    ⟨updatesFrom 3, rfl, stop 3 rfl⟩
  have chain : ChainAt (updatesFrom 0) targets last (updatesFrom 13) :=
    .assign first ⟨rfl, rfl⟩ (.assign second ⟨rfl, rfl⟩ (.value value rfl))
  exact ⟨_, chain, ended, by decide, expression_of_chain chain ended (by decide)⟩

end Parser

end ScriptLang
