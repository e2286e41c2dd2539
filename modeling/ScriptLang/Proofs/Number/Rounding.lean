import Mathlib
import ScriptLang.Number.Binary64

/-!
# Rounding to the nearest double

A positive double is a significand times a power of two. Around it lies its reach:
the numbers that are nearer to it than to any other double, with the ends of the
reach if the significand is even. A cut-off significand with the two bits behind it
says enough about a number to round it, and rounding takes every number of the reach
to the double.
-/

namespace ScriptLang.Number

open Float.Model Float.Model.UnpackedFloat

/-! ## Doubles and their reach -/

/-- The significands and exponents of positive finite doubles. -/
structure IsDouble (m : Nat) (e : Int) : Prop where
  pos : 0 < m
  lt : m < 2 ^ 53
  min_le : -1074 ≤ e
  le_max : e ≤ 971
  normal : 2 ^ 52 ≤ m ∨ e = -1074

/-- The significands and exponents that rounding gives, before the exponents that are too
large become infinity. -/
structure IsRounded (m : Nat) (e : Int) : Prop where
  pos : 0 < m
  lt : m < 2 ^ 53
  min_le : -1074 ≤ e
  normal : 2 ^ 52 ≤ m ∨ e = -1074

theorem IsDouble.isRounded {m : Nat} {e : Int} (hd : IsDouble m e) : IsRounded m e :=
  ⟨hd.pos, hd.lt, hd.min_le, hd.normal⟩

theorem IsRounded.isDouble {m : Nat} {e : Int} (hr : IsRounded m e) (le : e ≤ 971) :
    IsDouble m e := ⟨hr.pos, hr.lt, hr.min_le, le, hr.normal⟩

/-- How far the reach goes down, in quarters of the last place. Below a power of two
the neighbouring double is only half as far away. -/
def quartersBelow (m : Nat) (e : Int) : Nat :=
  if m = 2 ^ 52 ∧ e ≠ -1074 then 1 else 2

/-- The number lies in the reach of the double. -/
structure InReach (x : ℚ) (m : Nat) (e : Int) : Prop where
  low : (m - quartersBelow m e / 4) * 2 ^ e ≤ x
  high : x ≤ (m + 1 / 2) * 2 ^ e
  inside : m % 2 = 1 → (m - quartersBelow m e / 4) * 2 ^ e < x ∧ x < (m + 1 / 2) * 2 ^ e

theorem two_zpow_pos (e : Int) : (0 : ℚ) < 2 ^ e := by positivity

theorem quartersBelow_le (m : Nat) (e : Int) : (quartersBelow m e : ℚ) ≤ 2 := by
  unfold quartersBelow
  split <;> norm_num

/-- The double lies in its own reach. -/
theorem inReach_self (m : Nat) (e : Int) : InReach (m * 2 ^ e) m e := by
  have hp := two_zpow_pos e
  have below : (0 : ℚ) < quartersBelow m e := by
    unfold quartersBelow
    split <;> norm_num
  have low : (m - quartersBelow m e / 4 : ℚ) * 2 ^ e < m * 2 ^ e := by nlinarith
  have high : (m : ℚ) * 2 ^ e < (m + 1 / 2) * 2 ^ e := by nlinarith
  exact ⟨low.le, high.le, fun _ => ⟨low, high⟩⟩

/-! ## Significands with the bits behind them -/

/-- What is known of a number by its whole part and the two bits behind it: it is
whole, half-way, or strictly between. -/
def Represents (em : ExtendedMantissa) (z : ℚ) : Prop :=
  match em with
  | ⟨m, false, false⟩ => z = m
  | ⟨m, false, true⟩ => m < z ∧ z < m + 1 / 2
  | ⟨m, true, false⟩ => z = m + 1 / 2
  | ⟨m, true, true⟩ => m + 1 / 2 < z ∧ z < m + 1

namespace Represents

variable {em : ExtendedMantissa} {z : ℚ}

theorem exact (m : Nat) : Represents (.ofMantissaAndAccuracy m .exact) m := rfl

/-- A quotient with the remainder that is left. -/
theorem fraction (q : Nat) {r d : Nat} (hr : r < d) :
    Represents (.ofMantissaAndAccuracy q (accuracyOfFraction r d)) (q + r / d) := by
  have hd : (0 : ℚ) < d := by exact_mod_cast Nat.zero_lt_of_lt hr
  have small : (r : ℚ) / d < 1 := by
    rw [div_lt_one hd]
    exact_mod_cast hr
  unfold accuracyOfFraction
  split
  next zero => simp [ExtendedMantissa.ofMantissaAndAccuracy, Represents, zero]
  next nonzero =>
    have positive : (0 : ℚ) < r / d := by
      have : (0 : ℚ) < r := by exact_mod_cast Nat.pos_of_ne_zero nonzero
      positivity
    rcases hc : compare (2 * r) d with _ | _ | _
    · have hlt : (2 * r : ℚ) < d := by exact_mod_cast Nat.compare_eq_lt.mp hc
      have below : (r : ℚ) / d < 1 / 2 := by
        rw [div_lt_div_iff₀ hd (by norm_num)]
        linarith
      exact ⟨by linarith, by linarith⟩
    · have heq : (2 * r : ℚ) = d := by exact_mod_cast Nat.compare_eq_eq.mp hc
      have half : (r : ℚ) / d = 1 / 2 := by
        rw [div_eq_div_iff hd.ne' (by norm_num)]
        linarith
      change (q + r / d : ℚ) = q + 1 / 2
      rw [half]
    · have hgt : (d : ℚ) < 2 * r := by exact_mod_cast Nat.compare_eq_gt.mp hc
      have above : 1 / 2 < (r : ℚ) / d := by
        rw [div_lt_div_iff₀ (by norm_num) hd]
        linarith
      exact ⟨by linarith, by linarith⟩

/-- The whole part is what is before the point. -/
theorem mantissa_le (h : Represents em z) : em.mantissa ≤ z := by
  obtain ⟨m, _ | _, _ | _⟩ := em <;> simp only [Represents] at h <;> linarith

theorem lt_succ (h : Represents em z) : z < em.mantissa + 1 := by
  obtain ⟨m, _ | _, _ | _⟩ := em <;> simp only [Represents] at h <;> linarith

theorem shiftRightOne (h : Represents em z) : Represents em.shiftRightOne (z / 2) := by
  obtain ⟨m, round, sticky⟩ := em
  have even : (0 != 0) = false := rfl
  have odd : (1 != 0) = true := rfl
  obtain ⟨n, rfl | rfl⟩ := Nat.even_or_odd' m
  · have half : 2 * n / 2 = n := by omega
    have bit : 2 * n % 2 = 0 := by omega
    rw [ExtendedMantissa.shiftRightOne, half, bit, even]
    cases round <;> cases sticky <;> simp only [Represents, Bool.or] at h ⊢ <;> push_cast at h <;>
      first | linarith | constructor <;> linarith
  · have half : (2 * n + 1) / 2 = n := by omega
    have bit : (2 * n + 1) % 2 = 1 := by omega
    rw [ExtendedMantissa.shiftRightOne, half, bit, odd]
    cases round <;> cases sticky <;> simp only [Represents, Bool.or] at h ⊢ <;> push_cast at h <;>
      first | linarith | constructor <;> linarith

theorem shiftRight (h : Represents em z) (n : Nat) : Represents (em >>> n) (z / 2 ^ n) := by
  induction n with
  | zero =>
      rw [pow_zero, div_one]
      exact h
  | succ n ih =>
      have step : Represents (em >>> (n + 1)) (z / 2 ^ n / 2) := ih.shiftRightOne
      rwa [div_div, ← pow_succ] at step

/-- Rounding finds the whole number that is at most a half away; half-way it has to
be even. -/
theorem roundedMantissa_eq (h : Represents em z) {n : Nat} (low : n - 1 / 2 ≤ z)
    (high : z ≤ n + 1 / 2) (inside : n % 2 = 1 → n - 1 / 2 < z ∧ z < n + 1 / 2) :
    em.roundedMantissa = n := by
  have floor : em.mantissa ≤ n := by
    have : (em.mantissa : ℚ) < n + 1 := by linarith [h.mantissa_le]
    exact Nat.lt_succ_iff.mp (by exact_mod_cast this)
  have ceil : n ≤ em.mantissa + 1 := by
    have : (n : ℚ) < em.mantissa + 2 := by linarith [h.lt_succ]
    exact Nat.lt_succ_iff.mp (by exact_mod_cast this)
  obtain ⟨m, round, sticky⟩ := em
  obtain rfl | rfl : n = m ∨ n = m + 1 := by
    simp only at floor ceil
    omega
  · -- the whole part is the nearest number
    cases round with
    | false => cases sticky <;> rfl
    | true =>
        cases sticky with
        | true =>
            simp only [Represents] at h
            linarith
        | false =>
            simp only [Represents] at h
            have even : n % 2 ≠ 1 := fun odd => by linarith [(inside odd).2]
            change n + n % 2 = n
            omega
  · -- the next number is
    push_cast at low inside
    cases round with
    | true =>
        cases sticky with
        | true => rfl
        | false =>
            simp only [Represents] at h
            have even : (m + 1) % 2 ≠ 1 := fun odd => by linarith [(inside odd).1]
            change m + m % 2 = m + 1
            omega
    | false =>
        cases sticky <;> simp only [Represents] at h <;> linarith

end Represents

/-! ## Rounding -/

theorem mantissa_ofMantissaAndAccuracy (m : Nat) (acc : Accuracy) :
    (ExtendedMantissa.ofMantissaAndAccuracy m acc).mantissa = m := by
  rcases acc with _ | (_ | _ | _) <;> rfl

section

variable {x : ℚ} {m₀ m : Nat} {e₀ e : Int} {acc : Accuracy}

/-- Moving the point keeps what is known of the number. -/
theorem represents_shiftToExponent (h : Represents (.ofMantissaAndAccuracy m acc) (x / 2 ^ e))
    {t : Int} (ht : e ≤ t) :
    Represents (shiftToExponent m e acc t).1 (x / 2 ^ t) ∧ (shiftToExponent m e acc t).2 = t := by
  obtain ⟨n, rfl⟩ : ∃ n : Nat, t = e + n := ⟨(t - e).toNat, by omega⟩
  have amount : (e + n - e).toNat = n := by omega
  simp only [shiftToExponent, amount, and_true]
  have shifted := h.shiftRight n
  rwa [div_div, ← zpow_natCast, ← zpow_add₀ (by norm_num)] at shifted

/-- The power of two above the number. -/
theorem lt_totalExponent (h : Represents (.ofMantissaAndAccuracy m acc) (x / 2 ^ e)) :
    x < 2 ^ totalExponent m e := by
  have hp := two_zpow_pos e
  have upper := h.lt_succ
  rw [mantissa_ofMantissaAndAccuracy, div_lt_iff₀ hp] at upper
  have above : (m + 1 : ℚ) ≤ 2 ^ (m.log2 + 1) := by exact_mod_cast Nat.lt_log2_self (n := m)
  have power : (2 : ℚ) ^ totalExponent m e = 2 ^ (m.log2 + 1) * 2 ^ e := by
    rw [← zpow_natCast, ← zpow_add₀ (by norm_num), totalExponent]
    congr 1
  rw [power]
  nlinarith

/-- The power of two that the number reaches, if anything stands before the point. -/
theorem totalExponent_le (hm : 0 < m)
    (h : Represents (.ofMantissaAndAccuracy m acc) (x / 2 ^ e)) :
    2 ^ (totalExponent m e - 1) ≤ x := by
  have hp := two_zpow_pos e
  have lower := h.mantissa_le
  rw [mantissa_ofMantissaAndAccuracy, le_div_iff₀ hp] at lower
  have below : (2 ^ m.log2 : ℚ) ≤ m := by exact_mod_cast Nat.log2_self_le hm.ne'
  have power : (2 : ℚ) ^ (totalExponent m e - 1) = 2 ^ m.log2 * 2 ^ e := by
    rw [← zpow_natCast, ← zpow_add₀ (by norm_num), totalExponent]
    congr 1
    omega
  rw [power]
  nlinarith

/-- A number in the reach of a double with the full number of places has as many. -/
theorem le_of_inReach (hx : InReach x m₀ e₀) (normal : 2 ^ 52 ≤ m₀) : 2 ^ (51 + e₀) ≤ x := by
  have hp := two_zpow_pos e₀
  have quarters := quartersBelow_le m₀ e₀
  have mantissa : (2 ^ 52 : ℚ) ≤ m₀ := by exact_mod_cast normal
  have half : 2 ^ 51 * 2 ^ e₀ ≤ (m₀ - quartersBelow m₀ e₀ / 4) * (2 : ℚ) ^ e₀ := by nlinarith
  rw [zpow_add₀ (by norm_num)]
  exact le_trans half hx.low

/-- The last place of a number in the reach of a double is the one of the double,
except for the quarter below a power of two, whose places are half as large. -/
theorem targetExponent_of_inReach (hd : IsRounded m₀ e₀) (hx : InReach x m₀ e₀) {total : Int}
    (low : 2 ^ (total - 1) ≤ x ∨ total ≤ -1073) (high : x < 2 ^ total) :
    Format.binary64.targetExponent total = e₀ ∨
      Format.binary64.targetExponent total = e₀ - 1 ∧ m₀ = 2 ^ 52 ∧ e₀ ≠ -1074 ∧
        x < 2 ^ 52 * 2 ^ e₀ := by
  have hp := two_zpow_pos e₀
  have hmin := hd.min_le
  have target : Format.binary64.targetExponent total = max (total - 53) (-1074) := rfl
  have power (n : Nat) : (2 : ℚ) ^ n * 2 ^ e₀ = 2 ^ (n + e₀) := by
    rw [← zpow_natCast, ← zpow_add₀ (by norm_num)]
  have upper : total ≤ 53 + e₀ := by
    rcases low with low | low
    · have mantissa : (m₀ + 1 / 2 : ℚ) < 2 ^ 53 := by
        have : (m₀ + 1 : ℚ) ≤ 2 ^ 53 := by exact_mod_cast hd.lt
        linarith
      have below : (m₀ + 1 / 2) * 2 ^ e₀ < 2 ^ 53 * (2 : ℚ) ^ e₀ := by nlinarith
      rw [power] at below
      have := (zpow_lt_zpow_iff_right₀ (by norm_num)).mp
        (lt_of_le_of_lt (le_trans low hx.high) below)
      omega
    · omega
  by_cases tiny : e₀ = -1074
  · left
    omega
  have normal : 2 ^ 52 ≤ m₀ := hd.normal.resolve_right tiny
  have above : 51 + e₀ < total :=
    (zpow_lt_zpow_iff_right₀ (by norm_num)).mp (lt_of_le_of_lt (le_of_inReach hx normal) high)
  by_cases large : 2 ^ 52 * 2 ^ e₀ ≤ x
  · left
    rw [power] at large
    have := (zpow_lt_zpow_iff_right₀ (by norm_num)).mp (lt_of_le_of_lt large high)
    omega
  · right
    push Not at large
    have quarters := quartersBelow_le m₀ e₀
    have least : m₀ = 2 ^ 52 := by
      by_contra ne
      have next : (2 ^ 52 + 1 : ℚ) ≤ m₀ := by exact_mod_cast (by omega : 2 ^ 52 + 1 ≤ m₀)
      have : 2 ^ 52 * 2 ^ e₀ ≤ (m₀ - quartersBelow m₀ e₀ / 4) * (2 : ℚ) ^ e₀ := by nlinarith
      linarith [hx.low]
    refine ⟨?_, least, tiny, large⟩
    have below : total ≤ 52 + e₀ := by
      rcases low with low | low
      · rw [power] at large
        have := (zpow_lt_zpow_iff_right₀ (by norm_num)).mp (lt_of_le_of_lt low large)
        omega
      · omega
    omega

/-- The exponent of a double is the one that its size asks for. -/
theorem targetExponent_of_isRounded (hd : IsRounded m₀ e₀) :
    Format.binary64.targetExponent (totalExponent m₀ e₀) = e₀ := by
  obtain ⟨hpos, hlt, hmin, hn⟩ := hd
  have target : Format.binary64.targetExponent (totalExponent m₀ e₀) =
      max (m₀.log2 + 1 + e₀ - 53) (-1074) := rfl
  have upper : m₀.log2 < 53 := (Nat.log2_lt hpos.ne').mpr hlt
  rcases hn with hn | rfl
  · have lower : 52 ≤ m₀.log2 := (Nat.le_log2 hpos.ne').mpr hn
    omega
  · omega

/-- Rounding in its two steps: the significand is rounded at its last place, then a
carry moves the point once more. -/
theorem roundWithAccuracy_eq {s : Sign} {n : Nat} {t : Int} (hpos : 0 < m₀)
    (rounded : (shiftToTargetExponent .binary64 m e acc).1.roundedMantissa = n)
    (place : (shiftToTargetExponent .binary64 m e acc).2 = t)
    (mantissa : (shiftToTargetExponent .binary64 n t .exact).1.mantissa = m₀)
    (exponent : (shiftToTargetExponent .binary64 n t .exact).2 = e₀) :
    roundWithAccuracy .binary64 s m e acc = .finite s m₀ e₀ hpos := by
  subst rounded place mantissa exponent
  simp only [roundWithAccuracy]
  rw [dif_neg hpos.ne']

/-- Numbers in the reach of a double are rounded to it. -/
theorem roundWithAccuracy_of_inReach (hd : IsRounded m₀ e₀) (hx : InReach x m₀ e₀) (s : Sign)
    (fits : e ≤ Format.binary64.targetExponent (totalExponent m e))
    (h : Represents (.ofMantissaAndAccuracy m acc) (x / 2 ^ e)) :
    roundWithAccuracy .binary64 s m e acc = .finite s m₀ e₀ hd.pos := by
  have high := lt_totalExponent h
  have low : 2 ^ (totalExponent m e - 1) ≤ x ∨ totalExponent m e ≤ -1073 := by
    rcases Nat.eq_zero_or_pos m with rfl | hm
    · right
      change e ≤ max (0 + 1 + e - 53) (-1074) at fits
      change 0 + 1 + e ≤ -1073
      omega
    · exact .inl (totalExponent_le hm h)
  obtain ⟨represents, exponent⟩ := represents_shiftToExponent h fits
  have hp := two_zpow_pos e₀
  have below := hx.low
  have quarters := quartersBelow_le m₀ e₀
  rcases targetExponent_of_inReach hd hx low high with place | ⟨place, rfl, notTiny, under⟩
  · rw [place] at represents exponent
    have rounded : (shiftToExponent m e acc e₀).1.roundedMantissa = m₀ := by
      refine represents.roundedMantissa_eq ?_ ?_ fun odd => ?_
      · rw [le_div_iff₀ hp]
        nlinarith
      · rw [div_le_iff₀ hp]
        exact hx.high
      · obtain ⟨lo, hi⟩ := hx.inside odd
        rw [lt_div_iff₀ hp, div_lt_iff₀ hp]
        exact ⟨by nlinarith, hi⟩
    have stays : shiftToTargetExponent .binary64 m₀ e₀ .exact = (⟨m₀, false, false⟩, e₀) := by
      rw [shiftToTargetExponent, targetExponent_of_isRounded hd, shiftToExponent, Int.sub_self]
      exact congrArg _ (Int.add_zero e₀)
    have first : shiftToTargetExponent .binary64 m e acc = shiftToExponent m e acc e₀ := by
      rw [shiftToTargetExponent, place]
    refine roundWithAccuracy_eq hd.pos (first ▸ rounded) (first ▸ exponent) ?_ ?_
    · rw [stays]
    · rw [stays]
  · -- the places are half as large, and the significand is carried over into the next size
    rw [place] at represents exponent
    have rounded : (shiftToExponent m e acc (e₀ - 1)).1.roundedMantissa = 2 ^ 53 := by
      have half : (2 : ℚ) ^ e₀ = 2 ^ (e₀ - 1) * 2 := by
        rw [← zpow_add_one₀ (by norm_num), Int.sub_add_cancel]
      have one : quartersBelow (2 ^ 52) e₀ = 1 := if_pos ⟨rfl, notTiny⟩
      have hq := two_zpow_pos (e₀ - 1)
      rw [one, half] at below
      rw [half] at under
      push_cast at below
      refine represents.roundedMantissa_eq ?_ ?_ (by norm_num)
      · rw [le_div_iff₀ hq]
        push_cast
        linarith
      · rw [div_le_iff₀ hq]
        push_cast
        linarith
    have carried : shiftToTargetExponent .binary64 (2 ^ 53) (e₀ - 1) .exact =
        (⟨2 ^ 52, false, false⟩, e₀) := by
      have target : Format.binary64.targetExponent (totalExponent (2 ^ 53) (e₀ - 1)) = e₀ := by
        have total : totalExponent (2 ^ 53) (e₀ - 1) = e₀ + 53 := by
          rw [totalExponent, Nat.log2_two_pow]
          push_cast
          omega
        have hmin := hd.min_le
        rw [total]
        change max (e₀ + 53 - 53) (-1074) = e₀
        omega
      have amount : (e₀ - (e₀ - 1)).toNat = 1 := by omega
      rw [shiftToTargetExponent, target, shiftToExponent, amount]
      exact congrArg _ (Int.sub_add_cancel e₀ 1)
    have first : shiftToTargetExponent .binary64 m e acc = shiftToExponent m e acc (e₀ - 1) := by
      rw [shiftToTargetExponent, place]
    refine roundWithAccuracy_eq hd.pos (first ▸ rounded) (first ▸ exponent) ?_ ?_
    · rw [carried]
    · rw [carried]

end

/-! ## Products and quotients -/

section

variable {m₀ m₁ m₂ : Nat} {e₀ e₁ e₂ : Int}

theorem mul_of_inReach (s₁ s₂ : Sign) (h₁ : 0 < m₁) (h₂ : 0 < m₂) (hd : IsRounded m₀ e₀)
    (hx : InReach (m₁ * 2 ^ e₁ * (m₂ * 2 ^ e₂)) m₀ e₀) (places : 2 ^ 52 ≤ m₁ * m₂) :
    mul .binary64 (.finite s₁ m₁ e₁ h₁) (.finite s₂ m₂ e₂ h₂) =
      .finite (s₁ * s₂) m₀ e₀ hd.pos := by
  refine roundWithAccuracy_of_inReach hd hx (s₁ * s₂) ?_ ?_
  · have log : 52 ≤ (m₁ * m₂).log2 := (Nat.le_log2 (Nat.mul_pos h₁ h₂).ne').mpr places
    change _ ≤ max ((m₁ * m₂).log2 + 1 + (e₁ + e₂) - 53 : Int) (-1074)
    omega
  · have cut : m₁ * 2 ^ e₁ * (m₂ * 2 ^ e₂) / 2 ^ (e₁ + e₂) = ((m₁ * m₂ : Nat) : ℚ) := by
      have hp := (two_zpow_pos (e₁ + e₂)).ne'
      rw [div_eq_iff hp, zpow_add₀ (by norm_num), Nat.cast_mul]
      ring
    rw [cut]
    exact .exact _

/-- Division cuts the quotient off at some place, knows what is cut off, and takes
enough places for rounding. -/
theorem divCore_represents (h₂ : 0 < m₂) (m₁ : Nat) (e₁ e₂ : Int) :
    ∃ q t acc, divCore .binary64 m₁ e₁ m₂ e₂ = (q, t, acc) ∧
    Represents (.ofMantissaAndAccuracy q acc) (m₁ * 2 ^ e₁ / (m₂ * 2 ^ e₂) / 2 ^ t) ∧
    t ≤ Format.binary64.targetExponent (totalExponent m₁ e₁ - totalExponent m₂ e₂) := by
  have ht := min_le_left (e₁ - e₂)
    (Format.binary64.targetExponent (totalExponent m₁ e₁ - totalExponent m₂ e₂))
  have target := min_le_right (e₁ - e₂)
    (Format.binary64.targetExponent (totalExponent m₁ e₁ - totalExponent m₂ e₂))
  simp only [divCore]
  generalize min (e₁ - e₂) (Format.binary64.targetExponent
    (totalExponent m₁ e₁ - totalExponent m₂ e₂)) = t at ht target ⊢
  obtain ⟨n, shift⟩ : ∃ n : Nat, e₁ = t + n + e₂ := ⟨(e₁ - e₂ - t).toNat, by omega⟩
  have amount : (e₁ - e₂ - t).toNat = n := by omega
  rw [amount]
  refine ⟨_, _, _, rfl, ?_, target⟩
  have represents := Represents.fraction (m₁ <<< n / m₂) (Nat.mod_lt (m₁ <<< n) h₂)
  have divides : (m₁ * 2 ^ n : ℚ) = m₂ * (m₁ <<< n / m₂ : Nat) + (m₁ <<< n % m₂ : Nat) := by
    rw [← Nat.cast_mul, ← Nat.cast_add, Nat.div_add_mod, Nat.shiftLeft_eq]
    norm_num
  have hm : (m₂ : ℚ) ≠ 0 := by exact_mod_cast h₂.ne'
  have quotient : (m₁ * 2 ^ e₁ / (m₂ * 2 ^ e₂) / 2 ^ t : ℚ) =
      (m₁ <<< n / m₂ : Nat) + (m₁ <<< n % m₂ : Nat) / m₂ := by
    calc (m₁ * 2 ^ e₁ / (m₂ * 2 ^ e₂) / 2 ^ t : ℚ)
        = m₁ * 2 ^ n / m₂ := by
          rw [shift, zpow_add₀ (by norm_num), zpow_add₀ (by norm_num), zpow_natCast]
          field_simp
      _ = _ := by
          rw [divides]
          field_simp
  rw [quotient]
  exact represents

/-- The sizes of two numbers bound the size of their quotient. -/
theorem lt_quotient (h₁ : 0 < m₁) (h₂ : 0 < m₂) :
    (2 : ℚ) ^ (totalExponent m₁ e₁ - totalExponent m₂ e₂ - 1) <
      m₁ * 2 ^ e₁ / (m₂ * 2 ^ e₂) := by
  have exact (m : Nat) (e : Int) :
      Represents (.ofMantissaAndAccuracy m .exact) (m * 2 ^ e / 2 ^ e) := by
    rw [mul_div_cancel_right₀ _ (two_zpow_pos e).ne']
    exact .exact m
  have low : (2 : ℚ) ^ (totalExponent m₁ e₁ - 1) ≤ m₁ * 2 ^ e₁ :=
    totalExponent_le h₁ (exact m₁ e₁)
  have high : (m₂ * 2 ^ e₂ : ℚ) < 2 ^ totalExponent m₂ e₂ := lt_totalExponent (exact m₂ e₂)
  have positive : (0 : ℚ) < m₂ * 2 ^ e₂ := by
    have : (0 : ℚ) < m₂ := by exact_mod_cast h₂
    positivity
  have hp := two_zpow_pos (totalExponent m₁ e₁ - totalExponent m₂ e₂ - 1)
  rw [lt_div_iff₀ positive]
  calc (2 : ℚ) ^ (totalExponent m₁ e₁ - totalExponent m₂ e₂ - 1) * (m₂ * 2 ^ e₂)
      < 2 ^ (totalExponent m₁ e₁ - totalExponent m₂ e₂ - 1) * 2 ^ totalExponent m₂ e₂ := by
        gcongr
    _ = 2 ^ (totalExponent m₁ e₁ - 1) := by
        rw [← zpow_add₀ (by norm_num)]
        congr 1
        omega
    _ ≤ m₁ * 2 ^ e₁ := low

theorem div_of_inReach (h₁ : 0 < m₁) (h₂ : 0 < m₂) (hd : IsRounded m₀ e₀)
    (hx : InReach (m₁ * 2 ^ e₁ / (m₂ * 2 ^ e₂)) m₀ e₀) :
    div .binary64 (.finite .positive m₁ e₁ h₁) (.finite .positive m₂ e₂ h₂) =
      .finite .positive m₀ e₀ hd.pos := by
  obtain ⟨q, t, acc, core, represents, place⟩ := divCore_represents h₂ m₁ e₁ e₂
  have size := (zpow_lt_zpow_iff_right₀ (by norm_num)).mp
    (lt_trans (lt_quotient h₁ h₂) (lt_totalExponent represents))
  have fits : t ≤ Format.binary64.targetExponent (totalExponent q t) := by
    have target (total : Int) :
        Format.binary64.targetExponent total = max (total - 53) (-1074) := rfl
    rw [target] at place ⊢
    omega
  simp only [UnpackedFloat.div, core]
  exact roundWithAccuracy_of_inReach hd hx .positive fits represents

end

end ScriptLang.Number
