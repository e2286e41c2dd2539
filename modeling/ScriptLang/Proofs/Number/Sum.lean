import ScriptLang.Proofs.Number.Nearest

/-!
# Sums and products of numbers without a sign

Where two doubles are numbers from zero on, their sum and their product are what the exact
sum or product is rounded to. So natural numbers are added and multiplied exactly as long as
the result stays below two to the fifty-third.
-/

namespace ScriptLang.Number

open Float.Model Float.Model.UnpackedFloat

variable {m n a b d : Nat} {e : Int} {q w : ℚ} {x y z : Float}

/-- The double is the number, and has no sign. -/
inductive Denotes : Float → ℚ → Prop where
  | zero : Denotes 0 0
  | parts {m : Nat} {e : Int} (hd : IsDouble m e) : Denotes (ofParts .positive hd) (m * 2 ^ e)

/-- The number is rounded to the double, which has no sign. -/
inductive RoundsTo : ℚ → Float → Prop where
  | zero : RoundsTo 0 0
  | parts {q : ℚ} {m : Nat} {e : Int} (hr : IsRounded m e) :
      InReach q m e → RoundsTo q (ofRounded hr)

/-! ## What is rounded -/

theorem IsRounded.value_pos (hr : IsRounded m e) : (0 : ℚ) < m * 2 ^ e := by
  have significand : (0 : ℚ) < m := by exact_mod_cast hr.pos
  have power := two_zpow_pos e
  positivity

/-- Zero lies in no reach. -/
theorem InReach.pos (hr : IsRounded m e) (hx : InReach q m e) : 0 < q := by
  have significand : (1 : ℚ) ≤ m := by exact_mod_cast hr.pos
  have quarters := quartersBelow_le m e
  have power := two_zpow_pos e
  have low := hx.low
  nlinarith

/-- An exponent in the range of doubles stays. -/
theorem ofRounded_of_le (hr : IsRounded m e) (le : e ≤ 971) :
    ofRounded hr = ofParts .positive (hr.isDouble le) := rfl

/-- A larger exponent is packed into infinity. -/
theorem pack_of_lt (s : Sign) (hr : IsRounded m e) (lt : 971 < e) :
    Float.ofModel (.pack (.finite s m e hr.pos)) = .ofModel (.pack (.infinity s)) := by
  have large : 2 ^ Format.binary64.exponentBits ≤ (e + (Format.binary64.exponentBias : Nat) +
      (Format.binary64.mantissaBitsWithoutImplicit : Nat)).toNat + 1 := by
    change 2048 ≤ (e + 1023 + 52).toNat + 1
    omega
  have packed : UnpackedFloat.pack .binary64 (.finite s m e hr.pos) =
      UnpackedFloat.pack .binary64 (.infinity s) := by
    simp only [UnpackedFloat.pack, if_pos large]
  rw [Float.Model.pack.eq_def, Float.Model.pack.eq_def]
  simp only [packed]

theorem ofRounded_of_lt (hr : IsRounded m e) (lt : 971 < e) : ofRounded hr = infinity :=
  pack_of_lt .positive hr lt

/-- What a number is rounded to is the nearest double, or infinity. -/
theorem InReach.isNearest_ofRounded (hr : IsRounded m e) (hx : InReach q m e) :
    IsNearest q (ofRounded hr) := by
  rcases Int.lt_or_le 971 e with large | inRange
  · rw [ofRounded_of_lt hr large]
    exact .infinity (beyondRange_le hr large hx)
  · exact hx.isNearest (hr.isDouble inRange)

theorem RoundsTo.eq_zero (rounds : RoundsTo 0 x) : x = 0 := by
  cases rounds with
  | zero => rfl
  | parts hr hx => exact absurd (hx.pos hr) (lt_irrefl 0)

namespace Denotes

theorem rational? (number : Denotes x q) : rational? x = some q := by
  cases number with
  | zero => exact rational?_zero
  | parts hd => simp [rational?_ofParts, isNegative]

/-- A number that is a double is rounded to it. -/
theorem roundsTo (number : Denotes x q) : RoundsTo q x := by
  cases number with
  | zero => exact .zero
  | parts hd => exact .parts hd.isRounded (inReach_self _ _)

/-- A number that is a double is rounded to nothing else. -/
theorem eq_of_roundsTo (number : Denotes x q) (rounds : RoundsTo q y) : x = y := by
  cases number with
  | zero => exact rounds.eq_zero.symm
  | @parts m e hd =>
      generalize same : (m * 2 ^ e : ℚ) = q at rounds
      cases rounds with
      | zero => exact absurd same hd.isRounded.value_pos.ne'
      | parts hr hx =>
          obtain ⟨rfl, rfl⟩ := (inReach_self m e).unique hd.pos hd.isRounded hr (same ▸ hx)
          rfl

end Denotes

/-! ## Sums and products -/

theorem unpack_zero : (0 : Float).toModel.unpack = .zero .positive := rfl

theorem zero_add_ofParts (hd : IsDouble m e) :
    0 + ofParts .positive hd = ofParts .positive hd := by
  change Float.ofModel (.pack (UnpackedFloat.add _ (0 : Float).toModel.unpack
    (ofParts .positive hd).toModel.unpack)) = _
  rw [unpack_ofParts, unpack_zero]
  rfl

theorem ofParts_add_zero (hd : IsDouble m e) :
    ofParts .positive hd + 0 = ofParts .positive hd := by
  change Float.ofModel (.pack (UnpackedFloat.add _ (ofParts .positive hd).toModel.unpack
    (0 : Float).toModel.unpack)) = _
  rw [unpack_ofParts, unpack_zero]
  rfl

theorem zero_mul_ofParts (hd : IsDouble m e) : 0 * ofParts .positive hd = 0 := by
  change Float.ofModel (.pack (UnpackedFloat.mul _ (0 : Float).toModel.unpack
    (ofParts .positive hd).toModel.unpack)) = _
  rw [unpack_ofParts, unpack_zero]
  rfl

theorem ofParts_mul_zero (hd : IsDouble m e) : ofParts .positive hd * 0 = 0 := by
  change Float.ofModel (.pack (UnpackedFloat.mul _ (ofParts .positive hd).toModel.unpack
    (0 : Float).toModel.unpack)) = _
  rw [unpack_ofParts, unpack_zero]
  rfl

/-- A double from one on has all the places of a significand. -/
theorem IsDouble.places (hd : IsDouble m e) (large : (1 : ℚ) ≤ m * 2 ^ e) : 2 ^ 52 ≤ m := by
  refine hd.normal.resolve_right ?_
  rintro rfl
  have significand : (m : ℚ) < 2 ^ (53 : Int) := by exact_mod_cast hd.lt
  have small : (m * 2 ^ (-1074 : Int) : ℚ) < 1 := by
    calc (m * 2 ^ (-1074 : Int) : ℚ) < 2 ^ (53 : Int) * 2 ^ (-1074 : Int) :=
          mul_lt_mul_of_pos_right significand (two_zpow_pos _)
      _ = 2 ^ (-1021 : Int) := (zpow_add₀ (by norm_num) _ _).symm
      _ < 1 := zpow_lt_one_of_neg₀ (by norm_num) (by norm_num)
  exact absurd large (not_le.mpr small)

/-- The sum of two doubles is their exact sum, rounded. -/
theorem Denotes.add (hx : Denotes x q) (hy : Denotes y w) (rounds : RoundsTo (q + w) z) :
    x + y = z := by
  cases hx with
  | zero =>
      rw [zero_add] at rounds
      cases hy with
      | zero =>
          rw [rounds.eq_zero]
          rfl
      | parts hd => rw [zero_add_ofParts, (parts hd).eq_of_roundsTo rounds]
  | @parts m₁ e₁ h₁ =>
      cases hy with
      | zero =>
          rw [add_zero] at rounds
          rw [ofParts_add_zero, (parts h₁).eq_of_roundsTo rounds]
      | @parts m₂ e₂ h₂ =>
          generalize same : (m₁ * 2 ^ e₁ + m₂ * 2 ^ e₂ : ℚ) = sum at rounds
          cases rounds with
          | zero =>
              have left := h₁.isRounded.value_pos
              have right := h₂.isRounded.value_pos
              linarith
          | parts hr hx => exact add_ofParts hr h₁ h₂ (same ▸ hx)

/-- The product of two doubles is their exact product, rounded, if the one is at least one. -/
theorem Denotes.mul (hx : Denotes x q) (hy : Denotes y w) (large : q = 0 ∨ 1 ≤ q)
    (rounds : RoundsTo (q * w) z) : x * y = z := by
  cases hx with
  | zero =>
      rw [zero_mul] at rounds
      cases hy with
      | zero =>
          rw [rounds.eq_zero]
          rfl
      | parts hd => rw [zero_mul_ofParts, rounds.eq_zero]
  | @parts m₁ e₁ h₁ =>
      have places := h₁.places (large.resolve_left h₁.isRounded.value_pos.ne')
      cases hy with
      | zero =>
          rw [mul_zero] at rounds
          rw [ofParts_mul_zero, rounds.eq_zero]
      | @parts m₂ e₂ h₂ =>
          generalize same : (m₁ * 2 ^ e₁ * (m₂ * 2 ^ e₂) : ℚ) = product at rounds
          cases rounds with
          | zero =>
              have positive := mul_pos h₁.isRounded.value_pos h₂.isRounded.value_pos
              exact absurd same positive.ne'
          | parts hr hx => exact mul_ofParts .positive .positive hr h₁ h₂ (same ▸ hx) places

/-- One is a double. -/
theorem isDouble_one : IsDouble (2 ^ 52) (-52) :=
  ⟨by decide, by decide, by decide, by decide, .inl le_rfl⟩

theorem one_mul_of_denotes (hx : Denotes x q) : 1 * x = x := by
  have one : Denotes 1 1 := by
    have parts := Denotes.parts isDouble_one
    rwa [show ofParts .positive isDouble_one = 1 from rfl,
      show ((2 ^ 52 : Nat) * 2 ^ (-52 : Int) : ℚ) = 1 by norm_num] at parts
  refine one.mul hx (.inr le_rfl) ?_
  rw [one_mul]
  exact hx.roundsTo

/-- The product with minus one is the number with the other sign. -/
theorem rational?_neg_one_mul (hx : Denotes x q) : rational? (-1 * x) = some (-q) := by
  cases hx with
  | zero =>
      have zero : Number.exact (-1 * 0) = .finite true 0 0 := rfl
      simp [rational?, zero]
  | @parts m e hd =>
      have reach : InReach ((2 ^ 52 : Nat) * 2 ^ (-52 : Int) * (m * 2 ^ e)) m e := by
        rw [show ((2 ^ 52 : Nat) * 2 ^ (-52 : Int) : ℚ) = 1 by norm_num, one_mul]
        exact inReach_self m e
      have product : -1 * ofParts .positive hd = ofParts .negative hd := by
        rw [show (-1 : Float) = ofParts .negative isDouble_one from rfl]
        exact mul_ofParts .negative .positive hd.isRounded isDouble_one hd reach le_rfl
      rw [product, rational?_ofParts]
      simp [isNegative]

/-- Infinity stays, whatever it is multiplied with. -/
theorem Denotes.infinity_mul (hx : Denotes x q) (positive : 0 < q) : infinity * x = infinity := by
  cases hx with
  | zero => exact absurd positive (lt_irrefl 0)
  | parts hd =>
      change Float.ofModel (.pack (UnpackedFloat.mul _ infinity.toModel.unpack
        (ofParts .positive hd).toModel.unpack)) = _
      rw [unpack_ofParts]
      rfl

theorem Denotes.infinity_add (hx : Denotes x q) : infinity + x = infinity := by
  cases hx with
  | zero => rfl
  | parts hd =>
      change Float.ofModel (.pack (UnpackedFloat.add _ infinity.toModel.unpack
        (ofParts .positive hd).toModel.unpack)) = _
      rw [unpack_ofParts]
      rfl

/-! ## Natural numbers -/

/-- Natural numbers below two to the fifty-third are doubles. -/
theorem denotes_ofNat (lt : n < 2 ^ 53) : Denotes (Float.ofNat n) n := by
  rcases Nat.eq_zero_or_pos n with rfl | positive
  · rw [Nat.cast_zero]
    exact .zero
  · obtain ⟨m, e, hd, -, value⟩ := exists_isDouble positive lt 0 (by omega)
    rw [pow_zero, mul_one] at value
    rw [ofNat_eq_ofParts hd positive value.symm, ← value]
    exact .parts hd

/-- Products and sums of natural numbers are exact below two to the fifty-third. -/
theorem ofNat_mul_add (positive : 0 < b) (base : b < 2 ^ 53) (lt : a * b + d < 2 ^ 53) :
    Float.ofNat a * Float.ofNat b + Float.ofNat d = Float.ofNat (a * b + d) := by
  have le : a ≤ a * b := Nat.le_mul_of_pos_right a positive
  have large : (a : ℚ) = 0 ∨ 1 ≤ (a : ℚ) := by
    rcases Nat.eq_zero_or_pos a with rfl | one
    · exact .inl Nat.cast_zero
    · exact .inr (by exact_mod_cast one)
  have product : Float.ofNat a * Float.ofNat b = Float.ofNat (a * b) := by
    refine (denotes_ofNat (by omega)).mul (denotes_ofNat base) large ?_
    rw [← Nat.cast_mul]
    exact (denotes_ofNat (by omega)).roundsTo
  rw [product]
  refine (denotes_ofNat (by omega)).add (denotes_ofNat (by omega)) ?_
  rw [← Nat.cast_add]
  exact (denotes_ofNat lt).roundsTo

end ScriptLang.Number
