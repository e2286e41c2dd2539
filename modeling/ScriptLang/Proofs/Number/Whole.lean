import ScriptLang.Proofs.Number.ReadBack

/-!
# Whole numbers among the doubles

A finite double is a rational number. Doubles that are the same number are equal, which is
one double but for the two zeros; where that number is whole, it is the integer that the
double is read as, and the double that the integer converts to equals it.
-/

namespace ScriptLang.Number

open Float.Model Float.Model.UnpackedFloat

/-- The rational number that a double is. -/
def rational? (x : Float) : Option ℚ :=
  match exact x with
  | .finite negative m e => some ((if negative then -1 else 1) * (m * 2 ^ e))
  | _ => none

/-- The integer part of a number; fractions go toward zero. -/
def wholePart (q : ℚ) : Int := if q < 0 then ⌈q⌉ else ⌊q⌋

variable {m : Nat} {e : Int} {x y : Float} {q : ℚ}

/-! ## Doubles that are no numbers -/

/-- Besides not-a-number and both infinities, every double is a number. -/
theorem number_cases (x : Float) :
    x = nan ∨ x = infinity ∨ x = -infinity ∨ ∃ q, rational? x = some q := by
  have packed := eq_pack_unpack x
  unfold rational? Number.exact
  cases parts : x.toModel.unpack with
  | notANumber =>
      rw [parts] at packed
      exact .inl packed
  | infinity s =>
      rw [parts] at packed
      cases s with
      | positive => exact .inr (.inl packed)
      | negative => exact .inr (.inr (.inl (packed.trans rfl)))
  | zero s => exact .inr (.inr (.inr ⟨_, rfl⟩))
  | finite s m e hm => exact .inr (.inr (.inr ⟨_, rfl⟩))

/-! ## Doubles that are the same number -/

/-- No two significands and exponents of doubles are the same number. -/
theorem IsDouble.unique {m' : Nat} {e' : Int} (hd : IsDouble m e) (hd' : IsDouble m' e')
    (same : (m * 2 ^ e : ℚ) = m' * 2 ^ e') : m = m' ∧ e = e' := by
  have parts := (round_eq hd .positive hd.pos rfl).symm.trans
    (round_eq hd' .positive hd.pos same)
  injection parts with _ significand exponent
  exact ⟨significand, exponent⟩

/-- A double that is a number is a zero, or has its sign and magnitude. -/
theorem rational?_cases (number : rational? x = some q) :
    (∃ s, x.toModel.unpack = .zero s) ∧ q = 0 ∨
      ∃ s m e, ∃ hd : IsDouble m e,
        x = ofParts s hd ∧ q = (if isNegative s then -1 else 1) * (m * 2 ^ e) := by
  unfold rational? Number.exact at number
  cases parts : x.toModel.unpack with
  | notANumber | infinity =>
      rw [parts] at number
      cases number
  | zero s =>
      rw [parts] at number
      exact .inl ⟨⟨s, rfl⟩, by simpa using number.symm⟩
  | finite s m e hm =>
      obtain ⟨hd, rfl⟩ := eq_ofParts parts
      rw [parts] at number
      exact .inr ⟨s, m, e, hd, rfl, (Option.some.inj number).symm⟩

theorem IsDouble.ne_zero (hd : IsDouble m e) (negative : Bool) :
    ((if negative then -1 else 1) * (m * 2 ^ e) : ℚ) ≠ 0 := by
  have significand : (m : ℚ) ≠ 0 := by exact_mod_cast hd.pos.ne'
  have power := (two_zpow_pos e).ne'
  cases negative <;> simp [significand, power]

/-- The sign and the magnitude of a number other than zero are those of one double. -/
theorem IsDouble.eq_of_signed {m' : Nat} {e' : Int} {s s' : Sign} (hd : IsDouble m e)
    (hd' : IsDouble m' e')
    (same : ((if isNegative s then -1 else 1) * (m * 2 ^ e) : ℚ) =
      (if isNegative s' then -1 else 1) * (m' * 2 ^ e')) :
    ofParts s hd = ofParts s' hd' := by
  have positive {m : Nat} {e : Int} (hd : IsDouble m e) : (0 : ℚ) < m * 2 ^ e := by
    have significand : (0 : ℚ) < m := by exact_mod_cast hd.pos
    have power := two_zpow_pos e
    positivity
  have left := positive hd
  have right := positive hd'
  cases s <;> cases s' <;>
    simp only [isNegative, if_true, Bool.false_eq_true, if_false, one_mul, neg_one_mul] at same
  case negative.negative =>
    obtain ⟨rfl, rfl⟩ := hd.unique hd' (neg_injective same)
    rfl
  case positive.positive =>
    obtain ⟨rfl, rfl⟩ := hd.unique hd' same
    rfl
  all_goals linarith

/-- Doubles that are the same number are equal. -/
theorem beq_of_rational? (hx : rational? x = some q) (hy : rational? y = some q) :
    (x == y) = true := by
  rcases rational?_cases hx with ⟨⟨s, zero⟩, rfl⟩ | ⟨s, m, e, hd, rfl, rfl⟩
  · rcases rational?_cases hy with ⟨⟨s', zero'⟩, -⟩ | ⟨s', m, e, hd, -, number⟩
    · change (x.toModel.unpack.compare y.toModel.unpack == some .eq) = true
      rw [zero, zero']
      rfl
    · exact absurd number.symm (hd.ne_zero _)
  · rcases rational?_cases hy with ⟨-, number⟩ | ⟨s', m', e', hd', rfl, number⟩
    · exact absurd number (hd.ne_zero _)
    · rw [hd.eq_of_signed hd' number]
      refine beq_self ?_
      change (ofParts s' hd').toModel.unpack.isFinite = true
      rw [unpack_ofParts]
      rfl

/-! ## Integers -/

/-- A significand times a power of two, as a quotient if the power is one below the point. -/
theorem mul_zpow_of_neg (neg : e < 0) : (m * 2 ^ e : ℚ) = m / (2 ^ (-e).toNat : Nat) := by
  obtain ⟨n, rfl⟩ : ∃ n : Nat, e = -n := ⟨(-e).toNat, by omega⟩
  rw [zpow_neg, zpow_natCast, Int.neg_neg, Int.toNat_natCast, Nat.cast_pow, div_eq_mul_inv]
  rfl

/-- What is cut off is the fraction. -/
theorem truncated_eq (m : Nat) (e : Int) : truncated m e = ⌊(m * 2 ^ e : ℚ)⌋₊ := by
  unfold truncated
  split
  next whole =>
    obtain ⟨n, rfl⟩ := Int.eq_ofNat_of_zero_le whole
    rw [zpow_natCast, Int.toNat_natCast, Nat.shiftLeft_eq]
    exact_mod_cast (Nat.floor_natCast (R := ℚ) (m * 2 ^ n)).symm
  next below =>
    rw [mul_zpow_of_neg (by omega), Nat.floor_div_natCast, Nat.floor_natCast,
      Nat.shiftRight_eq_div_pow]

theorem isWhole_iff : isWhole m e = true ↔ ∃ n : Nat, (m * 2 ^ e : ℚ) = n := by
  rw [isWhole, Bool.or_eq_true, decide_eq_true_eq, beq_iff_eq]
  rcases Int.lt_or_le e 0 with neg | pos
  · rw [mul_zpow_of_neg neg, or_iff_right (by omega)]
    have nonzero : ((2 ^ (-e).toNat : Nat) : ℚ) ≠ 0 := by positivity
    constructor
    · intro divides
      obtain ⟨n, hn⟩ := Nat.dvd_of_mod_eq_zero divides
      refine ⟨n, ?_⟩
      rw [div_eq_iff nonzero, hn, Nat.cast_mul, mul_comm]
      rfl
    · rintro ⟨n, whole⟩
      rw [div_eq_iff nonzero] at whole
      have product : m = n * 2 ^ (-e).toNat := by exact_mod_cast whole
      rw [product]
      exact Nat.mul_mod_left _ _
  · obtain ⟨n, rfl⟩ := Int.eq_ofNat_of_zero_le pos
    refine iff_of_true (.inl pos) ⟨m * 2 ^ n, ?_⟩
    rw [zpow_natCast]
    push_cast
    rfl

theorem cast_signed (negative : Bool) (n : Nat) :
    (signed negative n : ℚ) = (if negative then -1 else 1) * n := by
  cases negative <;> simp [signed]

/-- What is truncated with its sign is the integer part. -/
theorem signed_truncated (negative : Bool) (m : Nat) (e : Int) :
    signed negative (truncated m e) = wholePart ((if negative then -1 else 1) * (m * 2 ^ e)) := by
  have positive : (0 : ℚ) ≤ m * 2 ^ e := by positivity
  rw [truncated_eq, wholePart, signed, Int.natCast_floor_eq_floor positive]
  cases negative with
  | false => simp [positive]
  | true =>
      rcases positive.eq_or_lt with zero | above
      · simp [← zero]
      · simp [above, Int.ceil_neg]

/-- A double is read as an integer if it is that number. -/
theorem integer?_eq_some_iff {n : Int} : integer? x = some n ↔ rational? x = some (n : ℚ) := by
  unfold integer? rational?
  cases parts : Number.exact x with
  | nan | infinite => simp
  | finite negative m e =>
      simp only [Option.ite_none_right_eq_some, Option.some.injEq, isWhole_iff, truncated_eq]
      constructor
      · rintro ⟨⟨i, whole⟩, rfl⟩
        rw [whole, Nat.floor_natCast, cast_signed]
      · intro number
        have magnitude : (m * 2 ^ e : ℚ) = n.natAbs := by
          have positive : (0 : ℚ) ≤ m * 2 ^ e := by positivity
          rw [Nat.cast_natAbs, Int.cast_abs, ← number]
          cases negative <;> simp [abs_of_nonneg positive]
        refine ⟨⟨_, magnitude⟩, ?_⟩
        rw [magnitude, ← cast_signed] at number
        rw [magnitude, Nat.floor_natCast]
        exact_mod_cast number

/-! ## Doubles of natural numbers -/

variable {i : Nat}

theorem rational?_ofParts (s : Sign) (hd : IsDouble m e) :
    rational? (ofParts s hd) = some ((if isNegative s then -1 else 1) * (m * 2 ^ e) : ℚ) := by
  rw [rational?, Number.exact, unpack_ofParts]

/-- The double of a number that is one. -/
theorem ofNat_eq_ofParts (hd : IsDouble m e) (hi : 0 < i) (same : (i : ℚ) = m * 2 ^ e) :
    Float.ofNat i = ofParts .positive hd := by
  refine ofScientific_of_inReach hd hi (p := 0) ?_
  rw [zpow_zero, mul_one, same]
  exact inReach_self m e

theorem rational?_zero : rational? (Float.ofNat 0) = some 0 := by
  have zero : Number.exact (Float.ofNat 0) = .finite false 0 0 := rfl
  simp [rational?, zero]

/-- Where a double is a natural number, that number converts to an equal double. -/
theorem ofNat_beq (number : rational? x = some (i : ℚ)) : (Float.ofNat i == x) = true := by
  rcases rational?_cases number with ⟨-, none⟩ | ⟨s, m, e, hd, rfl, some⟩
  · obtain rfl : i = 0 := by exact_mod_cast none
    exact beq_of_rational? rational?_zero (number.trans (by rw [Nat.cast_zero]))
  · have nonzero := some ▸ hd.ne_zero (isNegative s)
    have positive : 0 < i := Nat.pos_of_ne_zero (by exact_mod_cast nonzero)
    have magnitude : (i : ℚ) = m * 2 ^ e := by
      cases s with
      | positive => simpa [isNegative] using some
      | negative =>
          have below : (0 : ℚ) ≤ m * 2 ^ e := by positivity
          have above : (0 : ℚ) < i := by exact_mod_cast positive
          simp only [isNegative, if_true, neg_one_mul] at some
          linarith
    refine beq_of_rational? (q := i) ?_ number
    rw [ofNat_eq_ofParts hd positive magnitude, rational?_ofParts, magnitude]
    simp [isNegative]

/-- Natural numbers below two to the fifty-third are doubles. -/
theorem rational?_ofNat (lt : i < 2 ^ 53) : rational? (Float.ofNat i) = some (i : ℚ) := by
  rcases Nat.eq_zero_or_pos i with rfl | positive
  · rw [rational?_zero, Nat.cast_zero]
  · obtain ⟨m, e, hd, -, value⟩ := exists_isDouble positive lt 0 (by omega)
    rw [pow_zero, mul_one] at value
    rw [ofNat_eq_ofParts hd positive value.symm, rational?_ofParts, value]
    simp [isNegative]

end ScriptLang.Number
