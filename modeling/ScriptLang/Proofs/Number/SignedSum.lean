import ScriptLang.Proofs.Number.Sum

/-!
# Sums of numbers with a sign

The sum of two finite doubles is their exact sum, rounded, whatever their signs are. What is
said of rounding here is the same for both signs: no double is nearer to the exact sum than
the rounded one, and its distance from the rounded one is neither more than that of the other
doubles nor more than half a place.

Finite doubles compare as the numbers they are.
-/

namespace ScriptLang.Number

open Float.Model Float.Model.UnpackedFloat

variable {m m' n : Nat} {e e' t : Int} {q u v w : ℚ} {x y z : Float}

/-! ## Rounding -/

/-- The number is rounded to the second one, which is a double. -/
structure IsRounding (q u : ℚ) : Prop where
  /-- No double is nearer to the number. -/
  nearest : ∀ y w, rational? y = some w → |u - q| ≤ |w - q|
  /-- The double is as near to the number as to any other double. -/
  apart : ∀ y w, rational? y = some w → w ≠ u → |u - q| ≤ |w - u|
  /-- The difference is half of the last place at most. -/
  close : |u - q| ≤ |u| / 2 ^ 53 ∨ |u - q| ≤ 2 ^ (-1075 : Int)

/-- A number is rounded to a double, or to an infinity if it is half a place or more outside
of the range of doubles. -/
inductive RoundsSigned (q : ℚ) : Float → Prop where
  | number {x : Float} {u : ℚ} : rational? x = some u → IsRounding q u → RoundsSigned q x
  | above : beyondRange ≤ q → RoundsSigned q infinity
  | below : q ≤ -beyondRange → RoundsSigned q (-infinity)

theorem IsRounding.self (q : ℚ) : IsRounding q q where
  nearest _ _ _ := by simp
  apart _ _ _ _ := by simp
  close := .inl (by rw [sub_self, abs_zero]; positivity)

/-- With a number its negative is a double as well. -/
theorem exists_rational?_neg (number : rational? x = some v) :
    ∃ y, rational? y = some (-v) := by
  rcases rational?_cases number with ⟨-, rfl⟩ | ⟨s, m, e, hd, rfl, rfl⟩
  · exact ⟨Float.ofNat 0, by rw [rational?_zero, neg_zero]⟩
  · cases s with
    | positive => exact ⟨ofParts .negative hd, by simp [rational?_ofParts, isNegative]⟩
    | negative => exact ⟨ofParts .positive hd, by simp [rational?_ofParts, isNegative]⟩

theorem IsRounding.neg (h : IsRounding q u) : IsRounding (-q) (-u) where
  nearest y w number := by
    obtain ⟨y', number'⟩ := exists_rational?_neg number
    have near := h.nearest y' _ number'
    rwa [← abs_neg, ← abs_neg (-w - q), neg_sub', neg_sub', neg_neg] at near
  apart y w number other := by
    obtain ⟨y', number'⟩ := exists_rational?_neg number
    have near := h.apart y' _ number' fun same => other (neg_eq_iff_eq_neg.mp same)
    rwa [← abs_neg, ← abs_neg (-w - u), neg_sub', neg_sub', neg_neg] at near
  close := by rw [← neg_sub', abs_neg, abs_neg]; exact h.close

theorem IsRounding.signed (h : IsRounding q u) (s : Sign) :
    IsRounding ((if isNegative s then -1 else 1) * q) ((if isNegative s then -1 else 1) * u) := by
  cases s with
  | positive => simpa [isNegative] using h
  | negative => simpa [isNegative] using h.neg

/-- Between a double and every other one is half a place at least. -/
theorem IsDouble.half_le (hd : IsDouble m e) (number : rational? y = some w)
    (other : w ≠ m * 2 ^ e) : (2 ^ e / 2 : ℚ) ≤ |w - m * 2 ^ e| := by
  have positive := two_zpow_pos e
  have quarters : (1 : ℚ) ≤ quartersBelow m e := by
    unfold quartersBelow
    split <;> norm_num
  rcases hd.apart number other with below | above
  · rw [abs_sub_comm]
    exact le_trans (by nlinarith) (le_abs_self _)
  · exact le_trans (by nlinarith) (le_abs_self _)

/-- The same below zero. -/
theorem IsDouble.half_le_signed (hd : IsDouble m e) (s : Sign) (number : rational? y = some w)
    (other : w ≠ (if isNegative s then -1 else 1) * (m * 2 ^ e)) :
    (2 ^ e / 2 : ℚ) ≤ |w - (if isNegative s then -1 else 1) * (m * 2 ^ e)| := by
  cases s with
  | positive =>
      simp only [isNegative, Bool.false_eq_true, if_false, one_mul] at other ⊢
      exact hd.half_le number other
  | negative =>
      simp only [isNegative, if_true, neg_one_mul] at other ⊢
      obtain ⟨y', number'⟩ := exists_rational?_neg number
      have half := hd.half_le number' fun same => other (neg_eq_iff_eq_neg.mp same)
      rwa [← abs_neg, neg_sub', neg_neg] at half

theorem IsDouble.abs_signed (hd : IsDouble m e) (s : Sign) :
    |(if isNegative s then -1 else 1) * (m * 2 ^ e : ℚ)| = m * 2 ^ e := by
  cases s <;> simp [isNegative, abs_of_pos hd.isRounded.value_pos]

theorem IsNearest.le (h : IsNearest q x) (number : rational? x = some v) :
    ∀ y w, rational? y = some w → |v - q| ≤ |w - q| := by
  cases h with
  | number same _ nearest =>
      obtain rfl := Option.some.inj (number.symm.trans same)
      exact nearest
  | infinity => cases number

/-- The double in whose reach a number lies is what the number is rounded to. -/
theorem InReach.isRounding (hd : IsDouble m e) (hx : InReach q m e) :
    IsRounding q (m * 2 ^ e) := by
  have positive := two_zpow_pos e
  have half : |(m * 2 ^ e : ℚ) - q| ≤ 2 ^ e / 2 := by
    have quarters := quartersBelow_le m e
    have low := hx.low
    have high := hx.high
    rw [abs_le]
    constructor <;> nlinarith
  have number : rational? (ofParts .positive hd) = some (m * 2 ^ e : ℚ) := by
    simp [rational?_ofParts, isNegative]
  refine ⟨(hx.isNearest hd).le number, fun y w other apart => ?_, ?_⟩
  · exact le_trans half (hd.half_le other apart)
  · rcases hd.normal with normal | rfl
    · have significand : (2 ^ 52 : ℚ) ≤ m := by exact_mod_cast normal
      left
      rw [abs_of_nonneg (by positivity : (0 : ℚ) ≤ m * 2 ^ e), le_div_iff₀ (by positivity)]
      nlinarith
    · right
      have last : (2 : ℚ) ^ (-1074 : Int) = 2 ^ (-1075 : Int) * 2 := two_zpow_pred _
      rwa [last, mul_div_cancel_right₀ _ two_ne_zero, ← last] at half

/-- Moving the point moves the reach, away from the smallest doubles. -/
theorem InReach.scale (hx : InReach q m e) (large : e ≠ -1074) (large' : e + t ≠ -1074) :
    InReach (q * 2 ^ t) m (e + t) := by
  have positive := two_zpow_pos t
  have quarters : quartersBelow m (e + t) = quartersBelow m e := by
    simp only [quartersBelow, large, large', ne_eq, not_false_eq_true]
  have power : (2 : ℚ) ^ (e + t) = 2 ^ e * 2 ^ t := zpow_add₀ (by norm_num) e t
  refine ⟨?_, ?_, fun odd => ?_⟩
  · rw [quarters, power, ← mul_assoc]
    exact mul_le_mul_of_nonneg_right hx.low positive.le
  · rw [power, ← mul_assoc]
    exact mul_le_mul_of_nonneg_right hx.high positive.le
  · rw [quarters, power, ← mul_assoc, ← mul_assoc]
    exact ⟨mul_lt_mul_of_pos_right (hx.inside odd).1 positive,
      mul_lt_mul_of_pos_right (hx.inside odd).2 positive⟩

/-- Every multiple of the smallest double is rounded to some double, were there no largest
exponent. -/
theorem exists_isRounded (positive : 0 < n) (least : -1074 ≤ t) :
    ∃ m e, IsRounded m e ∧ InReach (n * 2 ^ t) m e := by
  rcases Nat.lt_or_ge n (2 ^ 53) with small | large
  · -- as many places as there are, unless the exponent gets too low
    have log : n.log2 < 53 := (Nat.log2_lt positive.ne').mpr small
    obtain ⟨k, few, low, full⟩ : ∃ k : Nat, n.log2 + k ≤ 52 ∧ -1074 ≤ t - k ∧
        (n.log2 + k = 52 ∨ t - k = -1074) :=
      ⟨min (52 - n.log2) (t + 1074).toNat, by omega, by omega, by omega⟩
    have places : 0 < n <<< k := Nat.shiftLeft_pos_iff.mpr positive
    have shifted := log2_shiftLeft positive k
    refine ⟨n <<< k, t - k, ⟨places, ?_, low, ?_⟩, ?_⟩
    · exact (Nat.log2_lt places.ne').mp (by omega)
    · exact full.imp_left fun all => (Nat.le_log2 places.ne').mp (by omega)
    · rw [← cast_shiftLeft n k t]
      exact inReach_self _ _
  · obtain ⟨m, k, one, -, low, high, hx⟩ := exists_inReach_of_le large
    exact ⟨m, k + t, ⟨by omega, high, by omega, .inl low⟩, hx.scale (by omega) (by omega)⟩

/-! ## Sums -/

/-- A significand times a power of two is rounded with its sign. -/
theorem roundsSigned_round (s : Sign) (positive : 0 < n) (least : -1074 ≤ t) :
    RoundsSigned ((if isNegative s then -1 else 1) * (n * 2 ^ t))
      (.ofModel (.pack (UnpackedFloat.round .binary64 s n t))) := by
  obtain ⟨m, e, hr, hx⟩ := exists_isRounded positive least
  rw [round_of_inReach hr s positive hx]
  rcases Int.lt_or_le 971 e with large | inRange
  · have beyond := beyondRange_le hr large hx
    rw [pack_of_lt s hr large]
    cases s with
    | positive => exact .above (by simpa [isNegative] using beyond)
    | negative => exact .below (by simpa [isNegative] using beyond)
  · have hd := hr.isDouble inRange
    exact .number (rational?_ofParts s hd) ((hx.isRounding hd).signed s)

/-- An integer times a power of two is rounded. -/
theorem roundsSigned_normalize (i : Int) (least : -1074 ≤ t) :
    RoundsSigned (i * 2 ^ t)
      (.ofModel (.pack (UnpackedFloat.normalize .binary64 i t .positive))) := by
  rcases lt_trichotomy i 0 with negative | rfl | positive
  · obtain ⟨n, rfl⟩ : ∃ n : Nat, i = -n := ⟨i.natAbs, by omega⟩
    rw [UnpackedFloat.normalize, Int.compare_eq_lt.mpr negative, Int.neg_neg, Int.toNat_natCast]
    simpa [isNegative] using roundsSigned_round (n := n) .negative (by omega) least
  · rw [Int.cast_zero, zero_mul]
    exact .number rational?_zero (.self 0)
  · obtain ⟨n, rfl⟩ : ∃ n : Nat, i = n := ⟨i.natAbs, by omega⟩
    rw [UnpackedFloat.normalize, Int.compare_eq_gt.mpr positive, Int.toNat_natCast]
    simpa [isNegative] using roundsSigned_round (n := n) .positive (by omega) least

/-- A significand with its sign at a lower exponent. -/
theorem cast_decreaseExponent (s : Sign) (m : Nat) (le : t ≤ e) :
    (s.apply (decreaseExponent m e t).1 * 2 ^ t : ℚ) =
      (if isNegative s then -1 else 1) * (m * 2 ^ e) := by
  have shifted := cast_shiftLeft m (e - t).toNat e
  rw [show e - ((e - t).toNat : Nat) = t by omega] at shifted
  cases s <;>
    simp only [Sign.apply, isNegative, decreaseExponent, Int.cast_neg, Int.cast_natCast, if_true,
      Bool.false_eq_true, if_false, one_mul, neg_mul, shifted]

theorem rational?_of_zero {s : Sign} (zero : x.toModel.unpack = .zero s) :
    rational? x = some 0 := by
  simp [rational?, exact, zero]

/-- The sum of two doubles is their exact sum, rounded. -/
theorem roundsSigned_add (hx : rational? x = some v) (hy : rational? y = some w) :
    RoundsSigned (v + w) (x + y) := by
  have sum : x + y = .ofModel (.pack (UnpackedFloat.add .binary64 x.toModel.unpack
    y.toModel.unpack)) := rfl
  rw [sum]
  rcases rational?_cases hx with ⟨⟨s₁, zero⟩, rfl⟩ | ⟨s₁, m₁, e₁, h₁, rfl, rfl⟩
  · rw [zero, zero_add]
    rcases rational?_cases hy with ⟨⟨s₂, zero'⟩, rfl⟩ | ⟨s₂, m₂, e₂, h₂, rfl, rfl⟩
    · rw [zero']
      refine .number ?_ (.self 0)
      cases s₁ <;> cases s₂
      all_goals exact rational?_of_zero rfl
    · rw [unpack_ofParts]
      exact .number hy (.self _)
  · rw [unpack_ofParts]
    rcases rational?_cases hy with ⟨⟨s₂, zero'⟩, rfl⟩ | ⟨s₂, m₂, e₂, h₂, rfl, rfl⟩
    · rw [zero', add_zero]
      exact .number hx (.self _)
    · rw [unpack_ofParts]
      have low : -1074 ≤ min e₁ e₂ := le_min h₁.min_le h₂.min_le
      rw [← cast_decreaseExponent s₁ m₁ (min_le_left e₁ e₂),
        ← cast_decreaseExponent s₂ m₂ (min_le_right e₁ e₂), ← add_mul, ← Int.cast_add]
      exact roundsSigned_normalize _ low

/-! ## Comparisons -/

/-- The larger exponent is the larger double, and for the same exponent the larger
significand. -/
theorem IsDouble.compare_then (hd : IsDouble m e) (hd' : IsDouble m' e') :
    (compare e e').then (compare m m') = compare (m * 2 ^ e : ℚ) (m' * 2 ^ e') := by
  have smaller {m m' : Nat} {e e' : Int} (hd : IsDouble m e) (hd' : IsDouble m' e')
      (lt : e < e') : (m * 2 ^ e : ℚ) < m' * 2 ^ e' := by
    have normal : (2 ^ 52 : ℚ) ≤ m' := by exact_mod_cast (hd'.normal_of_lt hd lt).1
    have power := two_zpow_pos e'
    exact lt_of_le_of_lt (hd.le_of_lt lt) (by nlinarith)
  have power := two_zpow_pos e
  rcases lt_trichotomy e e' with lt | rfl | gt
  · rw [compare_lt_iff_lt.mpr lt, compare_lt_iff_lt.mpr (smaller hd hd' lt), Ordering.lt_then]
  · rw [compare_eq_iff_eq.mpr rfl, Ordering.eq_then]
    rcases lt_trichotomy m m' with lt | rfl | gt
    · rw [compare_lt_iff_lt.mpr lt, compare_lt_iff_lt.mpr]
      exact mul_lt_mul_of_pos_right (by exact_mod_cast lt) power
    · rw [compare_eq_iff_eq.mpr rfl, compare_eq_iff_eq.mpr rfl]
    · rw [compare_gt_iff_gt.mpr gt, compare_gt_iff_gt.mpr]
      exact mul_lt_mul_of_pos_right (by exact_mod_cast gt) power
  · rw [compare_gt_iff_gt.mpr gt, compare_gt_iff_gt.mpr (smaller hd' hd gt), Ordering.gt_then]

theorem compare_neg_neg (v w : ℚ) : compare (-v) (-w) = (compare v w).swap := by
  rcases lt_trichotomy v w with lt | rfl | gt
  · rw [compare_lt_iff_lt.mpr lt, compare_gt_iff_gt.mpr (neg_lt_neg lt), Ordering.swap_lt]
  · rw [compare_eq_iff_eq.mpr rfl, compare_eq_iff_eq.mpr rfl, Ordering.swap_eq]
  · rw [compare_gt_iff_gt.mpr gt, compare_lt_iff_lt.mpr (neg_lt_neg gt), Ordering.swap_gt]

/-- Finite doubles compare as the numbers they are. -/
theorem compare_of_rational? (hx : rational? x = some v) (hy : rational? y = some w) :
    x.toModel.unpack.compare y.toModel.unpack = some (compare v w) := by
  have positive {m : Nat} {e : Int} (hd : IsDouble m e) : (0 : ℚ) < m * 2 ^ e :=
    hd.isRounded.value_pos
  rcases rational?_cases hx with ⟨⟨s₁, zero⟩, rfl⟩ | ⟨s₁, m₁, e₁, h₁, rfl, rfl⟩
  · rcases rational?_cases hy with ⟨⟨s₂, zero'⟩, rfl⟩ | ⟨s₂, m₂, e₂, h₂, rfl, rfl⟩
    · rw [zero, zero', compare_eq_iff_eq.mpr rfl]
      rfl
    · have above := positive h₂
      rw [zero, unpack_ofParts]
      cases s₂ with
      | positive => simp [UnpackedFloat.compare, isNegative, compare_lt_iff_lt.mpr above]
      | negative =>
          have below := neg_neg_of_pos above
          simp [UnpackedFloat.compare, isNegative, compare_gt_iff_gt.mpr below]
  · have above := positive h₁
    have below := neg_neg_of_pos above
    rcases rational?_cases hy with ⟨⟨s₂, zero'⟩, rfl⟩ | ⟨s₂, m₂, e₂, h₂, rfl, rfl⟩
    · rw [zero', unpack_ofParts]
      cases s₁ with
      | positive => simp [UnpackedFloat.compare, isNegative, compare_gt_iff_gt.mpr above]
      | negative => simp [UnpackedFloat.compare, isNegative, compare_lt_iff_lt.mpr below]
    · have above' := positive h₂
      rw [unpack_ofParts, unpack_ofParts]
      cases s₁ <;> cases s₂ <;>
        simp only [UnpackedFloat.compare, isNegative, if_true, Bool.false_eq_true, if_false,
          one_mul, neg_one_mul, compare_neg_neg, h₁.compare_then h₂]
      · rw [compare_lt_iff_lt.mpr (lt_trans below above')]
      · rw [compare_gt_iff_gt.mpr (lt_trans (neg_neg_of_pos above') above)]

theorem lt_iff_compare : x < y ↔ x.toModel.unpack.compare y.toModel.unpack = some .lt := by
  change decide ((x.toModel.unpack.compare y.toModel.unpack == some .lt) = true) = true ↔ _
  rw [decide_eq_true_eq, beq_iff_eq]

theorem beq_iff_compare :
    (x == y) = true ↔ x.toModel.unpack.compare y.toModel.unpack = some .eq := by
  change (x.toModel.unpack.compare y.toModel.unpack == some .eq) = true ↔ _
  rw [beq_iff_eq]

theorem lt_iff_of_rational? (hx : rational? x = some v) (hy : rational? y = some w) :
    x < y ↔ v < w := by
  rw [lt_iff_compare, compare_of_rational? hx hy, Option.some_inj, compare_lt_iff_lt]

theorem beq_iff_of_rational? (hx : rational? x = some v) (hy : rational? y = some w) :
    (x == y) = true ↔ v = w := by
  rw [beq_iff_compare, compare_of_rational? hx hy, Option.some_inj, compare_eq_iff_eq]

/-- Every finite double lies between the infinities. -/
theorem compare_infinity (s : Sign) (hy : rational? y = some w) :
    (UnpackedFloat.infinity s).compare y.toModel.unpack =
        some (if isNegative s then .lt else .gt) ∧
      y.toModel.unpack.compare (.infinity s) = some (if isNegative s then .gt else .lt) := by
  rcases rational?_cases hy with ⟨⟨s', zero⟩, -⟩ | ⟨s', m, e, hd, rfl, -⟩
  · cases s <;> simp [zero, UnpackedFloat.compare, isNegative]
  · cases s <;> simp [unpack_ofParts, UnpackedFloat.compare, isNegative]

/-- No finite double is out of the range of doubles. -/
theorem abs_lt_beyondRange (hx : rational? x = some v) : |v| < beyondRange := by
  rcases rational?_cases hx with ⟨-, rfl⟩ | ⟨s, m, e, hd, rfl, rfl⟩
  · rw [abs_zero, beyondRange]
    positivity
  · rw [hd.abs_signed]
    exact (inReach_self m e).lt_beyondRange hd

/-- Doubles that are the same number are one double, but for the zeros. -/
theorem eq_of_rational? (hx : rational? x = some v) (hy : rational? y = some v)
    (nonzero : v ≠ 0) : x = y := by
  rcases rational?_cases hx with ⟨-, zero⟩ | ⟨s, m, e, hd, rfl, rfl⟩
  · exact absurd zero nonzero
  · rcases rational?_cases hy with ⟨-, zero⟩ | ⟨s', m', e', hd', rfl, same⟩
    · exact absurd zero nonzero
    · exact hd.eq_of_signed hd' same

/-- The finite doubles are those that are numbers. -/
theorem isFinite_iff : x.isFinite = true ↔ ∃ v, rational? x = some v := by
  change x.toModel.unpack.isFinite = true ↔ _
  rw [rational?, exact]
  cases x.toModel.unpack <;> simp [UnpackedFloat.isFinite]

/-! ## Steps -/

section

variable (hx : rational? x = some v) (nonzero : w ≠ 0) (h : IsRounding (v + w) u)

include hx nonzero h

/-- Where adding a step moves a number at all, it moves it by half of the step or more. -/
theorem IsRounding.half_step_le (moves : u ≠ v) : v / w + 1 / 2 ≤ u / w := by
  have apart := h.apart x v hx moves.symm
  have steps : |u / w - v / w - 1| ≤ |u / w - v / w| := by
    have scale (q : ℚ) : |q / w| = |q| / |w| := abs_div q w
    rw [show u / w - v / w - 1 = (u - (v + w)) / w by field_simp; ring,
      show u / w - v / w = -((v - u) / w) by ring, abs_neg, scale, scale]
    exact div_le_div_of_nonneg_right apart (abs_nonneg w)
  have squares := sq_le_sq.mpr steps
  linarith

/-- A number that is moved by adding a step is not too many steps away from zero. -/
theorem IsRounding.abs_lt (hz : rational? z = some u) (moves : u ≠ v) : |v / w| < 2 ^ 55 := by
  have size : 0 < |w| := abs_pos.mpr nonzero
  rw [abs_div, div_lt_iff₀ size]
  have near := h.nearest x v hx
  rw [show v - (v + w) = -w by ring, abs_neg] at near
  have moved : |u - v| ≤ 2 * |w| := by
    calc |u - v| = |(u - (v + w)) + w| := by ring_nf
      _ ≤ |u - (v + w)| + |w| := abs_add_le _ _
      _ ≤ 2 * |w| := by linarith
  rcases rational?_cases hx with ⟨-, rfl⟩ | ⟨s, m, e, hd, rfl, rfl⟩
  · rw [abs_zero]
    positivity
  · have half := hd.half_le_signed s hz moves
    have significand : (m : ℚ) < 2 ^ 53 := by exact_mod_cast hd.lt
    have power := two_zpow_pos e
    rw [hd.abs_signed]
    nlinarith

end

/-- A number is moved by adding a step that is not too small next to it. -/
theorem IsRounding.moves (hs : rational? y = some w) (nonzero : w ≠ 0)
    (h : IsRounding (v + w) u) (small : |v / w| < 2 ^ 53) : u ≠ v := by
  rintro rfl
  have size : 0 < |w| := abs_pos.mpr nonzero
  rw [abs_div, div_lt_iff₀ size] at small
  have close := h.close
  rw [show u - (u + w) = -w by ring, abs_neg, le_div_iff₀ (by positivity)] at close
  rcases close with relative | absolute
  · linarith
  · rcases rational?_cases hs with ⟨-, rfl⟩ | ⟨s, m, e, hd, rfl, rfl⟩
    · exact nonzero rfl
    · rw [hd.abs_signed] at absolute
      have significand : (1 : ℚ) ≤ m := by exact_mod_cast hd.pos
      have least : (2 : ℚ) ^ (-1074 : Int) ≤ 2 ^ e := zpow_le_zpow_right₀ (by norm_num) hd.min_le
      have half : (2 : ℚ) ^ (-1074 : Int) = 2 ^ (-1075 : Int) * 2 := two_zpow_pred _
      have positive := two_zpow_pos (-1075)
      nlinarith

end ScriptLang.Number
