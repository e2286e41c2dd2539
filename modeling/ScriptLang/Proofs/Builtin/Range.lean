import ScriptLang.Builtin.Call
import ScriptLang.Proofs.Number.SignedSum

/-!
# Lists of progressions

The loop of `range` adds the step to the next number, in doubles, for as long as that number
lies before the stop. On finite arguments it is left exactly if no number that it comes to
before the stop is the same with the step added to it.

A position is counted in steps from zero, so that both directions are one: what lies ahead is
the larger position. A round that moves the next number moves it by half of a step or more,
and nothing is moved that is `2 ^ 55` steps away from zero. So there are fewer rounds than
the bound allows.
-/

namespace ScriptLang

open Number

namespace Progression

variable {p q : Progression} {xs ys : List Float} {b u v w : ℚ}

/-! ## The loop -/

/-- The loop lists the numbers, and is left. -/
inductive Lists : Progression → List Float → Prop where
  | left {p : Progression} : p.goesOn = false → Lists p []
  | round {p : Progression} {xs : List Float} :
      p.goesOn = true → Lists p.advance xs → Lists p (p.next :: xs)

/-- The loop of the first progression comes to the second one. -/
inductive Reaches (p : Progression) : Progression → Prop where
  | start : Reaches p p
  | round {q : Progression} : Reaches p q → q.goesOn = true → Reaches p q.advance

/-- The numbers start with the next one, each is the one before plus the step, and all of them
lie before the stop in the direction of the step. -/
structure Counts (p : Progression) (xs : List Float) : Prop where
  first : ∀ x ∈ xs.head?, x = p.next
  steps : xs.IsChain fun x y => y = x + p.step
  before : ∀ x ∈ xs, 0 < p.step ∧ x < p.stop ∨ p.step < 0 ∧ p.stop < x

theorem goesOn_iff : p.goesOn = true ↔
    0 < p.step ∧ p.next < p.stop ∨ p.step < 0 ∧ p.stop < p.next := by
  simp [goesOn]

/-- What the loop lists are the numbers of the progression. -/
theorem Lists.counts (h : p.Lists xs) : p.Counts xs := by
  induction h with
  | left => exact ⟨nofun, .nil, nofun⟩
  | @round p xs on _ ih =>
      refine ⟨fun x hx => (Option.some.inj hx).symm, ?_, ?_⟩
      · exact List.isChain_cons.mpr ⟨ih.first, ih.steps⟩
      · exact List.forall_mem_cons.mpr ⟨goesOn_iff.mp on, ih.before⟩

theorem Reaches.head (on : p.goesOn = true) (h : p.advance.Reaches q) : p.Reaches q := by
  induction h with
  | start => exact .round .start on
  | round _ on' ih => exact .round ih on'

/-- A loop that is left is left from wherever it comes to. -/
theorem Lists.of_reaches (h : p.Lists xs) (reaches : p.Reaches q) : ∃ ys, q.Lists ys := by
  induction reaches with
  | start => exact ⟨xs, h⟩
  | @round q _ on ih =>
      obtain ⟨ys, lists⟩ := ih
      cases lists with
      | left off => rw [on] at off; cases off
      | round _ rest => exact ⟨_, rest⟩

/-- A loop that does not get on is never left. -/
theorem not_lists_of_advance_eq (fixed : p.advance = p) (on : p.goesOn = true) :
    ¬ p.Lists xs := by
  intro h
  induction h with
  | left off => rw [on] at off; cases off
  | round _ _ ih => exact ih (by rw [fixed, fixed]) (by rw [fixed, on])

/-! ## One round -/

/-- The next number, the stop and the step as rational numbers. -/
structure At (p : Progression) (v b w : ℚ) : Prop where
  next : rational? p.next = some v
  stop : rational? p.stop = some b
  step : rational? p.step = some w
  nonzero : w ≠ 0

namespace At

theorem step_pos_iff (h : p.At v b w) : 0 < p.step ↔ 0 < w :=
  lt_iff_of_rational? rational?_zero h.step

theorem step_neg_iff (h : p.At v b w) : p.step < 0 ↔ w < 0 :=
  lt_iff_of_rational? h.step rational?_zero

/-- The stop is ahead of the next number. -/
theorem goesOn_iff (h : p.At v b w) : p.goesOn = true ↔ v / w < b / w := by
  rw [Progression.goesOn_iff, h.step_pos_iff, h.step_neg_iff, lt_iff_of_rational? h.next h.stop,
    lt_iff_of_rational? h.stop h.next]
  rcases lt_or_gt_of_ne h.nonzero with down | up
  · simp [down, down.not_gt, div_lt_div_right_of_neg down]
  · simp [up, up.not_gt, div_lt_div_iff_of_pos_right up]

/-- After a round the next number is the sum, rounded. Where it is out of range, so is the
stop. -/
theorem round (h : p.At v b w) :
    p.advance.goesOn = false ∧ p.stalls = false ∨
      ∃ u, p.advance.At u b w ∧ IsRounding (v + w) u ∧ (p.stalls = true ↔ u = v) := by
  have inside := abs_lt.mp (abs_lt_beyondRange h.next)
  generalize sum : p.next + p.step = z
  have advance : p.advance.next = z := sum
  have rounds := sum ▸ roundsSigned_add h.next h.step
  cases rounds with
  | number number rounding =>
      have next : p.advance.At _ b w := ⟨by rw [advance]; exact number, h.stop, h.step, h.nonzero⟩
      exact .inr ⟨_, next, rounding, beq_iff_of_rational? next.next h.next⟩
  | above beyond =>
      have up : 0 < w := by linarith
      refine .inl ⟨Bool.eq_false_iff.mpr fun on => ?_, Bool.eq_false_iff.mpr fun same => ?_⟩
      · rcases Progression.goesOn_iff.mp on with ⟨-, before⟩ | ⟨down, -⟩
        · rw [advance, lt_iff_compare] at before
          cases before.symm.trans (compare_infinity .positive h.stop).1
        · exact absurd (h.step_neg_iff.mp down) up.not_gt
      · rw [stalls, advance, beq_iff_compare] at same
        cases same.symm.trans (compare_infinity .positive h.next).1
  | below beyond =>
      have down : w < 0 := by linarith
      refine .inl ⟨Bool.eq_false_iff.mpr fun on => ?_, Bool.eq_false_iff.mpr fun same => ?_⟩
      · rcases Progression.goesOn_iff.mp on with ⟨up, -⟩ | ⟨-, before⟩
        · exact absurd (h.step_pos_iff.mp up) down.not_gt
        · rw [advance, lt_iff_compare] at before
          cases before.symm.trans (compare_infinity .negative h.stop).2
      · rw [stalls, advance, beq_iff_compare] at same
        cases same.symm.trans (compare_infinity .negative h.next).1

/-- Where adding the step changes nothing the loop does not get on. -/
theorem advance_eq (h : p.At v b w) (stalls : p.stalls = true) : p.advance = p := by
  rcases h.round with ⟨-, moves⟩ | ⟨u, next, rounding, same⟩
  · rw [stalls] at moves
    cases moves
  · obtain rfl := same.mp stalls
    have nonzero : u ≠ 0 := by
      rintro rfl
      refine rounding.moves h.step h.nonzero ?_ rfl
      rw [zero_div, abs_zero]
      positivity
    have sum : p.advance.next = p.next := eq_of_rational? next.next h.next nonzero
    change { p with next := p.advance.next } = p
    rw [sum]

/-- A loop that is left was never at a number that the step does not move. -/
theorem not_stalls (h : p.At v b w) (on : p.goesOn = true) (lists : p.Lists xs) :
    p.stalls = false :=
  Bool.eq_false_iff.mpr fun stalls => not_lists_of_advance_eq (h.advance_eq stalls) on lists

/-- The numbers that the loop comes to before the stop are ahead of its start. -/
theorem exists_reached (h : p.At v b w) (reaches : p.Reaches q) (on : q.goesOn = true) :
    ∃ u, q.At u b w ∧ v / w ≤ u / w := by
  induction reaches with
  | start => exact ⟨v, h, le_rfl⟩
  | @round q _ before ih =>
      obtain ⟨u, hq, ahead⟩ := ih before
      rcases hq.round with ⟨off, -⟩ | ⟨u', next, rounding, -⟩
      · rw [on] at off
        cases off
      · refine ⟨u', next, le_trans ahead ?_⟩
        rcases eq_or_ne u' u with rfl | moves
        · exact le_rfl
        · linarith [rounding.half_step_le hq.next hq.nonzero moves]

/-- A round that moves the next number, and is not the last one, moves it by half of a step or
more, and from somewhere near zero. -/
theorem round_of_not_stalls (h : p.At v b w) (moves : p.stalls = false) :
    p.advance.goesOn = false ∨
      ∃ u, p.advance.At u b w ∧ v / w + 1 / 2 ≤ u / w ∧ |v / w| < 2 ^ 55 := by
  rcases h.round with ⟨off, -⟩ | ⟨u, next, rounding, same⟩
  · exact .inl off
  · have other : u ≠ v := fun eq => Bool.false_ne_true (moves.symm.trans (same.mpr eq))
    exact .inr ⟨u, next, rounding.half_step_le h.next h.nonzero other,
      rounding.abs_lt h.next h.nonzero next.next other⟩

end At

/-! ## All rounds -/

theorem lists_of_not_goesOn (off : p.goesOn = false) (h : p.Lists xs) : xs = [] := by
  cases h with
  | left => rfl
  | round on => rw [off] at on; cases on

/-- A list of two numbers or more has about twice as many as there are steps up to where nothing
is moved any more. -/
theorem Lists.length_le (lists : p.Lists xs) (h : p.At v b w) (several : 2 ≤ xs.length) :
    (xs.length : ℚ) ≤ 2 * (2 ^ 55 - v / w) + 2 := by
  induction lists generalizing v with
  | left => cases several
  | @round p xs on rest ih =>
      rcases h.round_of_not_stalls (h.not_stalls on (.round on rest)) with
        off | ⟨u, next, further, near⟩
      · obtain rfl := lists_of_not_goesOn off rest
        cases Nat.le_of_succ_le_succ several
      · rw [List.length_cons]
        have position := (abs_lt.mp near).2
        rcases Nat.lt_or_ge xs.length 2 with few | more
        · have one : (xs.length : ℚ) ≤ 1 := by exact_mod_cast Nat.lt_succ_iff.mp few
          push_cast
          linarith
        · push_cast
          linarith [ih next more]

/-- A loop that is left has a list of less than `2 ^ 58` numbers. -/
theorem Lists.length_lt (lists : p.Lists xs) (h : p.At v b w) : xs.length < 2 ^ 58 := by
  rcases Nat.lt_or_ge xs.length 2 with few | several
  · omega
  · -- the first number is moved, since it is not the last one
    have near : |v / w| < 2 ^ 55 := by
      cases lists with
      | left => cases several
      | round on rest =>
          rcases h.round_of_not_stalls (h.not_stalls on (.round on rest)) with
            off | ⟨u, -, -, near⟩
          · obtain rfl := lists_of_not_goesOn off rest
            cases Nat.le_of_succ_le_succ several
          · exact near
    have bound := lists.length_le h several
    have position := (abs_lt.mp near).1
    have lt : (xs.length : ℚ) < (2 ^ 58 : Nat) := by
      push_cast
      linarith
    exact_mod_cast lt

/-- Where no number before the stop stays the same, the loop is left. -/
theorem exists_lists (h : p.At v b w)
    (moves : ∀ q, p.Reaches q → q.goesOn = true → q.stalls = false) : ∃ xs, p.Lists xs := by
  obtain ⟨n, far⟩ := exists_nat_gt (2 * (2 ^ 55 - v / w))
  induction n using Nat.strong_induction_on generalizing p v with
  | h n ih =>
      by_cases on : p.goesOn = true
      · rcases h.round_of_not_stalls (moves p .start on) with off | ⟨u, next, further, near⟩
        · exact ⟨_, .round on (.left off)⟩
        · have positive : 0 < n := by
            have position := (abs_lt.mp near).2
            have cast : (0 : ℚ) < n := by linarith
            exact_mod_cast cast
          have closer : 2 * (2 ^ 55 - u / w) < ((n - 1 : Nat) : ℚ) := by
            rw [Nat.cast_pred positive]
            linarith
          obtain ⟨xs, lists⟩ :=
            ih (n - 1) (Nat.pred_lt_self positive) next (fun q hq => moves q (hq.head on)) closer
          exact ⟨_, .round on lists⟩
      · exact ⟨[], .left (Bool.eq_false_iff.mpr on)⟩

/-- The loop is left exactly if no number that it comes to before the stop is the same with
the step added to it. -/
theorem exists_lists_iff (h : p.At v b w) :
    (∃ xs, p.Lists xs) ↔ ∀ q, p.Reaches q → q.goesOn = true → q.stalls = false := by
  constructor
  · rintro ⟨xs, lists⟩ q reaches on
    obtain ⟨ys, lists'⟩ := lists.of_reaches reaches
    obtain ⟨u, hq, -⟩ := h.exists_reached reaches on
    exact hq.not_stalls on lists'
  · exact exists_lists h

/-- The loop is left if neither its start nor its stop is too many steps away from zero. -/
theorem exists_lists_of_near (h : p.At v b w) (start : |v| < 2 ^ 53 * |w|)
    (stop : |b| ≤ 2 ^ 53 * |w|) : ∃ xs, p.Lists xs := by
  have size : 0 < |w| := abs_pos.mpr h.nonzero
  rw [← div_lt_iff₀ size, ← abs_div] at start
  rw [← div_le_iff₀ size, ← abs_div] at stop
  refine exists_lists h fun q reaches on => ?_
  obtain ⟨u, hq, ahead⟩ := h.exists_reached reaches on
  have before := hq.goesOn_iff.mp on
  have near : |u / w| < 2 ^ 53 :=
    abs_lt.mpr ⟨lt_of_lt_of_le (abs_lt.mp start).1 ahead, lt_of_lt_of_le before (abs_le.mp stop).2⟩
  rcases hq.round with ⟨-, moves⟩ | ⟨u', -, rounding, same⟩
  · exact moves
  · exact Bool.eq_false_iff.mpr fun stalls =>
      rounding.moves hq.step hq.nonzero near (same.mp stalls)

/-! ## Collecting -/

/-- What is collected is what the loop lists. -/
theorem exists_lists_of_collect {count : Nat} {found items : Array Value}
    (h : collect count p found = some items) :
    ∃ xs, p.Lists xs ∧ items = found ++ (xs.map Value.num).toArray := by
  fun_induction collect count p found with
  | case1 => cases h
  | case2 => cases h
  | case3 count p found on _ ih =>
      obtain ⟨xs, lists, rfl⟩ := ih h
      exact ⟨_, .round on lists, by simp⟩
  | case4 count p found off =>
      exact ⟨[], .left (Bool.eq_false_iff.mpr off), by simpa using (Option.some.inj h).symm⟩

/-- What the loop lists is collected, if enough rounds are allowed. -/
theorem Lists.collect_eq (lists : p.Lists xs)
    (moves : ∀ q, p.Reaches q → q.goesOn = true → q.stalls = false) {count : Nat}
    (enough : xs.length < count) (found : Array Value) :
    collect count p found = some (found ++ (xs.map Value.num).toArray) := by
  induction lists generalizing count found with
  | left off =>
      obtain ⟨count, rfl⟩ := Nat.exists_eq_succ_of_ne_zero (Nat.ne_zero_of_lt enough)
      simp [collect, off]
  | @round p xs on rest ih =>
      obtain ⟨count, rfl⟩ := Nat.exists_eq_succ_of_ne_zero (Nat.ne_zero_of_lt enough)
      have later := ih (fun q hq => moves q (hq.head on)) (Nat.lt_of_succ_lt_succ enough)
        (found.push (.num p.next))
      rw [collect, if_pos on, moves p .start on, if_neg Bool.false_ne_true, later]
      simp

/-- All numbers are collected exactly if the loop is left, since the bound is large enough. -/
theorem items?_eq_some_iff (h : p.At v b w) {items : Array Value} :
    p.items? = some items ↔ ∃ xs, p.Lists xs ∧ items = (xs.map Value.num).toArray := by
  constructor
  · intro collected
    simpa using exists_lists_of_collect collected
  · rintro ⟨xs, lists, rfl⟩
    have enough : xs.length < bound := lt_trans (lists.length_lt h) (by decide)
    rw [items?, lists.collect_eq ((exists_lists_iff h).mp ⟨xs, lists⟩) enough, Array.empty_append]

end Progression

/-- The call answers with all numbers of the progression, if there is a last one. -/
theorem call_range {start stop step : Float} (nonzero : (step == 0) = false) (heap : Heap)
    {items? : Option (Array Value)} (collected : Progression.items? ⟨start, stop, step⟩ = items?) :
    Builtin.range.call [.num start, .num stop, .num step] heap =
      items?.elim .endless fun items => .returned (.list items) := by
  have described : Builtin.progression [start, stop, step] = .ok ⟨start, stop, step⟩ := by
    rw [Builtin.progression, nonzero, if_neg Bool.false_ne_true]
  change Builtin.listRange [start, stop, step] = _
  cases items? <;> simp only [Builtin.listRange, described, collected, Option.elim]

/-- With finite arguments and a step other than zero, the loop of `range` is left exactly if
no number that it comes to before the stop is the same with the step added to it. The answer
is then the list of the numbers, of which there are less than `2 ^ 58`: they start with the
start, each is the one before plus the step, and all of them lie before the stop. Otherwise
there is no answer. The loop is always left if the start and the stop are within `2 ^ 53`
steps from zero. -/
theorem range_of_finite (start stop step : Float) (heap : Heap) (hstart : start.isFinite = true)
    (hstop : stop.isFinite = true) (hstep : step.isFinite = true)
    (nonzero : (step == 0) = false) :
    let p : Progression := ⟨start, stop, step⟩
    let answer := Builtin.range.call [.num start, .num stop, .num step] heap
    ((∃ xs, p.Lists xs) ↔ ∀ q, p.Reaches q → q.goesOn = true → q.stalls = false) ∧
      (∀ xs, p.Lists xs → p.Counts xs ∧ xs.length < 2 ^ 58 ∧
        answer = .returned (.list (xs.map Value.num).toArray)) ∧
      ((¬ ∃ xs, p.Lists xs) → answer = .endless) ∧
      (∀ v b w, rational? start = some v → rational? stop = some b → rational? step = some w →
        |v| < 2 ^ 53 * |w| → |b| ≤ 2 ^ 53 * |w| → ∃ xs, p.Lists xs) := by
  intro p answer
  obtain ⟨v, next⟩ := isFinite_iff.mp hstart
  obtain ⟨b, stops⟩ := isFinite_iff.mp hstop
  obtain ⟨w, steps⟩ := isFinite_iff.mp hstep
  have other : w ≠ 0 := fun zero => by
    have same : (step == 0) = true := (beq_iff_of_rational? steps rational?_zero).mpr zero
    rw [nonzero] at same
    cases same
  have h : p.At v b w := ⟨next, stops, steps, other⟩
  refine ⟨Progression.exists_lists_iff h, fun xs lists => ?_, fun endless => ?_, ?_⟩
  · have collected := (Progression.items?_eq_some_iff h).mpr ⟨xs, lists, rfl⟩
    exact ⟨lists.counts, lists.length_lt h, call_range nonzero heap collected⟩
  · have none : p.items? = none := Option.eq_none_iff_forall_ne_some.mpr fun items collected => by
      obtain ⟨xs, lists, -⟩ := (Progression.items?_eq_some_iff h).mp collected
      exact endless ⟨xs, lists⟩
    exact call_range nonzero heap none
  · intro v' b' w' next' stops' steps'
    exact Progression.exists_lists_of_near ⟨next', stops', steps', by
      rwa [← Option.some.inj (steps.symm.trans steps')]⟩

/-- A progression downwards. -/
theorem range_of_finite_downwards :
    Float.isFinite 5 = true ∧ Float.isFinite 0 = true ∧ Float.isFinite (-2) = true ∧
      ((-2 : Float) == 0) = false ∧
      Builtin.range.call [.num 5, .num 0, .num (-2)] {} =
        .returned (.list #[.num 5, .num 3, .num 1]) := by
  have finite : Float.isFinite 5 = true ∧ Float.isFinite 0 = true ∧ Float.isFinite (-2) = true :=
    ⟨rfl, rfl, rfl⟩
  have second : Progression.advance ⟨5, 0, -2⟩ = ⟨3, 0, -2⟩ := rfl
  have third : Progression.advance ⟨3, 0, -2⟩ = ⟨1, 0, -2⟩ := by
    -- the sum has its significand in full, and so has this one
    have one : (1 : Float) = .ofModel (.pack (.finite .positive (2 ^ 52) (-52) (by decide))) := rfl
    rw [one]
    rfl
  have lists : Progression.Lists ⟨5, 0, -2⟩ [5, 3, 1] := by
    refine .round rfl ?_
    rw [second]
    refine .round rfl ?_
    rw [third]
    exact .round rfl (.left rfl)
  obtain ⟨-, answers, -⟩ := range_of_finite 5 0 (-2) {} finite.1 finite.2.1 finite.2.2 rfl
  exact ⟨finite.1, finite.2.1, finite.2.2, rfl, (answers _ lists).2.2⟩

/-- From two to the fifty-third on, adding one changes nothing. -/
theorem range_never_ends :
    Float.isFinite 9007199254740992 = true ∧ Float.isFinite 9007199254740994 = true ∧
      Float.isFinite 1 = true ∧ ((1 : Float) == 0) = false ∧
      (¬ ∃ xs, Progression.Lists ⟨9007199254740992, 9007199254740994, 1⟩ xs) ∧
      Builtin.range.call [.num 9007199254740992, .num 9007199254740994, .num 1] {} = .endless := by
  have fixed : Progression.advance ⟨9007199254740992, 9007199254740994, 1⟩ =
      ⟨9007199254740992, 9007199254740994, 1⟩ := by rfl
  refine ⟨rfl, rfl, rfl, rfl, ?_, ?_⟩
  · rintro ⟨xs, lists⟩
    exact Progression.not_lists_of_advance_eq fixed rfl lists
  · rfl

end ScriptLang
