import ScriptLang.Proofs.Number.Scientific

/-!
# The shortest decimal of a double

The reach of a double, scaled to whole numbers, and the search for a decimal in it.
Whatever grid the search stops at, the decimal it finds lies in the reach, so it is
read back as the double.
-/

namespace ScriptLang.Number

variable {m : Nat} {e : Int}

/-- The value of a decimal. -/
def Decimal.value (d : Decimal) : ℚ := d.digits * 10 ^ d.exponent

namespace Reach

/-! ## The scaled reach -/

/-- What the reach is multiplied with, apart from the power of ten that the places count. -/
def scale (e : Int) : Nat :=
  if 0 ≤ e - 2 then Nat.pow 2 (e - 2).toNat else Nat.pow 5 (-(e - 2)).toNat

theorem cast_scale (e : Int) : (scale e : ℚ) = 2 ^ e / 4 * 10 ^ (-(e - 2)).toNat := by
  have quarter : (2 : ℚ) ^ e / 4 = 2 ^ (e - 2) := by
    rw [zpow_sub₀ (by norm_num)]
    norm_num
  rw [quarter, scale]
  split
  next whole =>
    obtain ⟨n, hn⟩ := Int.eq_ofNat_of_zero_le whole
    rw [hn, Int.toNat_natCast, zpow_natCast]
    have none : (-(n : Int)).toNat = 0 := by omega
    rw [none, pow_zero, mul_one]
    exact Nat.cast_pow 2 n
  next fraction =>
    obtain ⟨n, hn⟩ : ∃ n : Nat, e - 2 = -n := ⟨(-(e - 2)).toNat, by omega⟩
    rw [hn, Int.neg_neg, Int.toNat_natCast, zpow_neg, zpow_natCast, Nat.pow_eq, Nat.cast_pow]
    have ten : (10 : ℚ) ^ n = 2 ^ n * 5 ^ n := by
      rw [← mul_pow]
      norm_num
    rw [ten]
    field_simp
    norm_num

theorem of_eq (m : Nat) (e : Int) :
    Reach.of m e = ⟨(4 * m - quartersBelow m e) * scale e, 4 * m * scale e,
      (4 * m + 2) * scale e, m % 2 == 0, (-(e - 2)).toNat⟩ := by
  have below : (if m == Nat.pow 2 52 && e != -1074 then 1 else 2) = quartersBelow m e := by
    simp [quartersBelow]
  simp only [Reach.of, below]
  rfl

/-- The ends of the reach, multiplied by the power of ten that the places count. -/
theorem cast_ends (hd : IsDouble m e) :
    ((Reach.of m e).low : ℚ) =
        (m - quartersBelow m e / 4) * 2 ^ e * 10 ^ (Reach.of m e).places ∧
      ((Reach.of m e).high : ℚ) = (m + 1 / 2) * 2 ^ e * 10 ^ (Reach.of m e).places := by
  have below : quartersBelow m e ≤ 4 * m := by
    have : quartersBelow m e ≤ 2 := by exact_mod_cast quartersBelow_le m e
    have := hd.pos
    omega
  rw [of_eq]
  simp only [Nat.cast_mul, Nat.cast_sub below, Nat.cast_add, cast_scale]
  push_cast
  constructor <;> ring

/-- The numbers that the search looks for are those of the reach. -/
theorem inReach_of_contains (hd : IsDouble m e) {n : Nat} (h : (Reach.of m e).contains n = true) :
    InReach (n / 10 ^ (Reach.of m e).places) m e := by
  obtain ⟨low, high⟩ := cast_ends hd
  have hp : (0 : ℚ) < 10 ^ (Reach.of m e).places := by positivity
  have closed : (Reach.of m e).closed = (m % 2 == 0) := rfl
  unfold Reach.contains at h
  by_cases even : m % 2 = 0
  · simp only [closed, even, beq_self_eq_true, if_true, Bool.and_eq_true, decide_eq_true_eq] at h
    refine ⟨?_, ?_, fun odd => absurd odd (by omega)⟩
    · rw [le_div_iff₀ hp, ← low]
      exact_mod_cast h.1
    · rw [div_le_iff₀ hp, ← high]
      exact_mod_cast h.2
  · have opened : (m % 2 == 0) = false := by simpa using even
    simp only [closed, opened, Bool.false_eq_true, if_false, Bool.and_eq_true,
      decide_eq_true_eq] at h
    have above : (m - quartersBelow m e / 4) * 2 ^ e < (n / 10 ^ (Reach.of m e).places : ℚ) := by
      rw [lt_div_iff₀ hp, ← low]
      exact_mod_cast h.1
    have under : (n / 10 ^ (Reach.of m e).places : ℚ) < (m + 1 / 2) * 2 ^ e := by
      rw [div_lt_iff₀ hp, ← high]
      exact_mod_cast h.2
    exact ⟨above.le, under.le, fun _ => ⟨above, under⟩⟩

/-- The double itself is among them. -/
theorem contains_value (m : Nat) (e : Int) (hm : 0 < m) :
    (Reach.of m e).contains (Reach.of m e).value = true := by
  have scaled : 0 < scale e := by
    unfold scale
    split <;> exact Nat.pow_pos (by decide)
  have below : 0 < quartersBelow m e := by
    unfold quartersBelow
    split <;> decide
  have low : (4 * m - quartersBelow m e) * scale e < 4 * m * scale e :=
    Nat.mul_lt_mul_of_pos_right (by omega) scaled
  have high : 4 * m * scale e < (4 * m + 2) * scale e :=
    Nat.mul_lt_mul_of_pos_right (by omega) scaled
  rw [of_eq, Reach.contains]
  split <;> simp [low, high, low.le, high.le]

/-! ## The search -/

variable {r : Reach}

theorem candidate?_contains {step digits : Nat} (h : r.candidate? step = some digits) :
    r.contains (digits * step) = true := by
  simp only [candidate?] at h
  split at h
  next down up =>
    split at h
    next => cases h; exact down
    next => cases h; exact up
  next down _ => cases h; exact down
  next _ up => cases h; exact up
  next => cases h

/-- Whichever grid the search stops at, it has found a number of the reach. -/
theorem shortest_contains (h : r.contains r.value = true) (drop : Nat) :
    ∃ n, r.contains n = true ∧ (r.shortest drop).value = n / 10 ^ r.places := by
  induction drop with
  | zero =>
      refine ⟨r.value, h, ?_⟩
      simp only [shortest, Decimal.value]
      rw [zpow_neg, zpow_natCast, div_eq_mul_inv]
  | succ drop ih =>
      simp only [shortest]
      split
      next digits found =>
        refine ⟨_, candidate?_contains found, ?_⟩
        have power :
            (10 : ℚ) ^ ((drop + 1 : Int) - r.places) = 10 ^ (drop + 1) / 10 ^ r.places := by
          rw [zpow_sub₀ (by norm_num), zpow_natCast]
          norm_cast
        rw [Decimal.value, power, Nat.cast_mul, Nat.pow_eq, mul_div_assoc]
        push_cast
        rfl
      next => exact ih

end Reach

/-- The shortest decimal is read back as the double. -/
theorem inReach_shortestDecimal (hd : IsDouble m e) :
    InReach (shortestDecimal m e).value m e := by
  obtain ⟨n, contained, value⟩ := Reach.shortest_contains (Reach.contains_value m e hd.pos)
    ((Nat.toDigits 10 (Reach.of m e).value).length - 1)
  have found : (shortestDecimal m e).value = n / 10 ^ (Reach.of m e).places := value
  rw [found]
  exact Reach.inReach_of_contains hd contained

/-- The shortest decimal is above zero. -/
theorem digits_shortestDecimal_pos (hd : IsDouble m e) : 0 < (shortestDecimal m e).digits := by
  have positive : 0 < (shortestDecimal m e).value :=
    lt_of_lt_of_le (two_zpow_pos _) ((inReach_shortestDecimal hd).bounds hd).1
  refine Nat.pos_of_ne_zero fun zero => ?_
  rw [Decimal.value, zero, Nat.cast_zero, zero_mul] at positive
  exact lt_irrefl _ positive

end ScriptLang.Number
