import ScriptLang.Number.Decimal
import ScriptLang.Proofs.Number.Packing

/-!
# Decimals that are read as a double

Digits times a power of ten are read as the double whose reach they lie in, by
whichever way: through doubles where the digits and the power are doubles themselves,
and through exact products and quotients otherwise.
-/

namespace ScriptLang.Number

open Float.Model Float.Model.UnpackedFloat

variable {m₀ m : Nat} {e₀ e : Int}

/-- The double of a sign, a significand and an exponent. -/
def ofParts (s : Sign) (hd : IsDouble m e) : Float := .ofModel (.pack (.finite s m e hd.pos))

/-- What rounding a positive number gives: infinity if the exponent is too large. -/
def ofRounded (hr : IsRounded m e) : Float := .ofModel (.pack (.finite .positive m e hr.pos))

theorem unpack_ofParts (s : Sign) (hd : IsDouble m e) :
    (ofParts s hd).toModel.unpack = .finite s m e hd.pos := unpack_pack hd s

/-- Every double is what it is unpacked into. -/
theorem eq_pack_unpack (x : Float) : x = .ofModel (.pack x.toModel.unpack) := by
  obtain ⟨⟨⟨b⟩, valid⟩⟩ := x
  have packed : UnpackedFloat.pack .binary64 (UnpackedFloat.unpack .binary64 b) = b :=
    pack_unpack_of_valid valid
  simp only [Float.Model.pack]
  congr 2
  exact congrArg UInt64.ofBitVec packed.symm

/-- Every finite double other than the zeros is the one of its parts. -/
theorem eq_ofParts {x : Float} {s : Sign} {hm : 0 < m}
    (h : x.toModel.unpack = .finite s m e hm) :
    ∃ hd : IsDouble m e, x = ofParts s hd := by
  have packed := eq_pack_unpack x
  rw [h] at packed
  exact ⟨isDouble_of_unpack h, packed⟩

/-! ## Whole numbers -/

theorem log2_shiftLeft (hm : 0 < m) (n : Nat) : (m <<< n).log2 = m.log2 + n := by
  have hpos : m <<< n ≠ 0 := (Nat.shiftLeft_pos_iff.mpr hm).ne'
  rw [Nat.log2_eq_iff hpos, Nat.shiftLeft_eq, Nat.pow_add, Nat.add_right_comm, Nat.pow_add]
  exact ⟨Nat.mul_le_mul_right _ (Nat.log2_self_le hm.ne'),
    Nat.mul_lt_mul_of_pos_right Nat.lt_log2_self (Nat.two_pow_pos n)⟩

/-- Moving the point to the right keeps the number. -/
theorem cast_shiftLeft (m n : Nat) (e : Int) :
    ((m <<< n : Nat) * 2 ^ (e - n) : ℚ) = m * 2 ^ e := by
  rw [Nat.shiftLeft_eq, zpow_sub₀ (by norm_num), zpow_natCast]
  push_cast
  field_simp

/-- A significand times a power of two is rounded to the double in whose reach it lies. -/
theorem round_of_inReach (hd : IsRounded m₀ e₀) (s : Sign) (hm : 0 < m)
    (hx : InReach (m * 2 ^ e) m₀ e₀) : round .binary64 s m e = .finite s m₀ e₀ hd.pos := by
  have size (n : Nat) : totalExponent (m <<< n) (e - n) = totalExponent m e := by
    rw [totalExponent, log2_shiftLeft hm, totalExponent]
    push_cast
    omega
  simp only [UnpackedFloat.round, decreaseExponent]
  refine roundWithAccuracy_of_inReach hd hx s ?_ ?_
  · rw [size]
    omega
  · rw [← cast_shiftLeft m (e - Format.binary64.targetExponent (totalExponent m e)).toNat e,
      mul_div_cancel_right₀ _ (two_zpow_pos _).ne']
    exact .exact _

/-- No number lies in the reach of two doubles. -/
theorem InReach.unique {m₁ : Nat} {e₁ : Int} (hm : 0 < m) (hd : IsRounded m₀ e₀)
    (hd' : IsRounded m₁ e₁) (hx : InReach (m * 2 ^ e) m₀ e₀) (hx' : InReach (m * 2 ^ e) m₁ e₁) :
    m₀ = m₁ ∧ e₀ = e₁ := by
  have same := (round_of_inReach hd .positive hm hx).symm.trans
    (round_of_inReach hd' .positive hm hx')
  injection same with _ significand exponent
  exact ⟨significand, exponent⟩

/-- A number that is a double is rounded to it. -/
theorem round_eq (hd : IsDouble m₀ e₀) (s : Sign) (hm : 0 < m)
    (h : (m * 2 ^ e : ℚ) = m₀ * 2 ^ e₀) :
    round .binary64 s m e = .finite s m₀ e₀ hd.pos :=
  round_of_inReach hd.isRounded s hm (h ▸ inReach_self m₀ e₀)

/-- A whole number with few enough places is a double. -/
theorem exists_isDouble (hm : 0 < m) (lt : m < 2 ^ 53) (twos : Nat) (few : twos ≤ 900) :
    ∃ m₀ e₀, IsDouble m₀ e₀ ∧ 2 ^ 52 ≤ m₀ ∧ (m₀ * 2 ^ e₀ : ℚ) = m * 2 ^ twos := by
  have log : m.log2 < 53 := (Nat.log2_lt hm.ne').mpr lt
  obtain ⟨n, places⟩ : ∃ n, m.log2 + n = 52 := ⟨52 - m.log2, by omega⟩
  have hpos : 0 < m <<< n := Nat.shiftLeft_pos_iff.mpr hm
  have log : (m <<< n).log2 = 52 := by rw [log2_shiftLeft hm, places]
  have low : 2 ^ 52 ≤ m <<< n := (Nat.le_log2 hpos.ne').mp log.ge
  have high : m <<< n < 2 ^ 53 := (Nat.log2_lt hpos.ne').mp (by omega)
  refine ⟨m <<< n, twos - n, ⟨hpos, high, by omega, by omega, .inl low⟩, low, ?_⟩
  rw [cast_shiftLeft, zpow_natCast]

/-- Whole numbers below two to the fifty-third convert exactly. -/
theorem toFloat_toUInt64 (hm : 0 < m) (lt : m < 2 ^ 53) :
    ∃ m₁ e₁, ∃ hd : IsDouble m₁ e₁, m.toUInt64.toFloat = ofParts .positive hd ∧ 2 ^ 52 ≤ m₁ ∧
      (m₁ * 2 ^ e₁ : ℚ) = m := by
  obtain ⟨m₁, e₁, hd, places, value⟩ := exists_isDouble hm lt 0 (by omega)
  rw [pow_zero, mul_one] at value
  refine ⟨m₁, e₁, hd, ?_, places, value⟩
  have word : m.toUInt64.toNat = m := Nat.mod_eq_of_lt (by omega)
  have whole : ofNat .binary64 m = .finite .positive m₁ e₁ hd.pos := by
    rw [UnpackedFloat.ofNat, UnpackedFloat.ofInt, UnpackedFloat.normalize,
      Int.compare_eq_gt.mpr (by omega)]
    exact round_eq hd .positive hm (by rw [zpow_zero, mul_one, value, Int.toNat_natCast])
  rw [ofParts, ← whole]
  conv_rhs => rw [← word]
  rfl

/-- The powers of ten up to the twenty-second are doubles. -/
theorem exactlyRepresentablePowersOfTen_eq {p : Nat}
    (hp : p < Float.exactlyRepresentablePowersOfTen.size) :
    ∃ m₂ e₂, ∃ hd : IsDouble m₂ e₂,
      Float.exactlyRepresentablePowersOfTen[p] = ofParts .positive hd ∧ 2 ^ 52 ≤ m₂ ∧
        (m₂ * 2 ^ e₂ : ℚ) = 10 ^ p := by
  change p < 23 at hp
  have table : ∀ p : Fin 23, Float.exactlyRepresentablePowersOfTen[p] =
      .ofModel (.pack (.round .binary64 .positive (10 ^ p.val) 0)) := by decide +kernel
  have small : 5 ^ p < 2 ^ 53 :=
    lt_of_le_of_lt (Nat.pow_le_pow_right (by decide) (Nat.le_of_lt_succ hp)) (by decide)
  obtain ⟨m₂, e₂, hd, places, value⟩ := exists_isDouble (by positivity) small p (by omega)
  have ten : (m₂ * 2 ^ e₂ : ℚ) = 10 ^ p := by
    rw [value, Nat.cast_pow, ← mul_pow]
    norm_num
  refine ⟨m₂, e₂, hd, ?_, places, ten⟩
  have rounded := round_eq hd .positive (m := 10 ^ p) (e := 0) (by positivity)
    (by rw [zpow_zero, mul_one, ten, Nat.cast_pow]; norm_num)
  rw [ofParts, ← rounded]
  exact table ⟨p, hp⟩

/-! ## Reading -/

/-- What is read as a double is neither too large nor too small for one. -/
theorem InReach.bounds {x : ℚ} (hd : IsDouble m₀ e₀) (hx : InReach x m₀ e₀) :
    2 ^ (-1075 : Int) ≤ x ∧ x < 2 ^ (1024 : Int) := by
  have hp := two_zpow_pos e₀
  have quarters := quartersBelow_le m₀ e₀
  have positive : (1 : ℚ) ≤ m₀ := by exact_mod_cast hd.pos
  have mantissa : (m₀ + 1 : ℚ) ≤ 2 ^ 53 := by exact_mod_cast hd.lt
  have low : (2 : ℚ) ^ (-1074 : Int) ≤ 2 ^ e₀ := zpow_le_zpow_right₀ (by norm_num) hd.min_le
  have high : (2 : ℚ) ^ e₀ ≤ 2 ^ (971 : Int) := zpow_le_zpow_right₀ (by norm_num) hd.le_max
  have least : (2 : ℚ) ^ (-1075 : Int) = 1 / 2 * 2 ^ (-1074 : Int) := by
    rw [show (-1074 : Int) = -1075 + 1 from rfl, zpow_add_one₀ (by norm_num)]
    ring
  have most : (2 : ℚ) ^ (1024 : Int) = 2 ^ 53 * 2 ^ (971 : Int) := by
    rw [show (1024 : Int) = 53 + 971 from rfl, zpow_add₀ (by norm_num)]
    rfl
  constructor
  · have half : 1 / 2 * 2 ^ e₀ ≤ (m₀ - quartersBelow m₀ e₀ / 4) * (2 : ℚ) ^ e₀ := by nlinarith
    rw [least]
    linarith [hx.low]
  · have below : (m₀ + 1 / 2) * 2 ^ e₀ < (2 : ℚ) ^ 53 * 2 ^ e₀ := by nlinarith
    rw [most]
    linarith [hx.high]

section

variable {m₁ m₂ : Nat} {e₁ e₂ : Int}

theorem mul_ofParts (s₁ s₂ : Sign) (hd : IsRounded m₀ e₀) (h₁ : IsDouble m₁ e₁)
    (h₂ : IsDouble m₂ e₂) (hx : InReach (m₁ * 2 ^ e₁ * (m₂ * 2 ^ e₂)) m₀ e₀)
    (places : 2 ^ 52 ≤ m₁) :
    ofParts s₁ h₁ * ofParts s₂ h₂ = .ofModel (.pack (.finite (s₁ * s₂) m₀ e₀ hd.pos)) := by
  change Float.ofModel (.pack (UnpackedFloat.mul _ (ofParts s₁ h₁).toModel.unpack
    (ofParts s₂ h₂).toModel.unpack)) = _
  rw [unpack_ofParts, unpack_ofParts, mul_of_inReach s₁ s₂ h₁.pos h₂.pos hd hx
    (le_trans places (Nat.le_mul_of_pos_right m₁ h₂.pos))]

/-- Sums are taken exactly, then rounded. -/
theorem add_ofParts (hd : IsRounded m₀ e₀) (h₁ : IsDouble m₁ e₁) (h₂ : IsDouble m₂ e₂)
    (hx : InReach (m₁ * 2 ^ e₁ + m₂ * 2 ^ e₂) m₀ e₀) :
    ofParts .positive h₁ + ofParts .positive h₂ = ofRounded hd := by
  have least₁ := min_le_left e₁ e₂
  have least₂ := min_le_right e₁ e₂
  have sum : UnpackedFloat.add .binary64 (.finite .positive m₁ e₁ h₁.pos)
      (.finite .positive m₂ e₂ h₂.pos) = .finite .positive m₀ e₀ hd.pos := by
    simp only [UnpackedFloat.add, decreaseExponent]
    generalize min e₁ e₂ = t at least₁ least₂ ⊢
    obtain ⟨n₁, rfl⟩ : ∃ n : Nat, e₁ = t + n := ⟨(e₁ - t).toNat, by omega⟩
    obtain ⟨n₂, rfl⟩ : ∃ n : Nat, e₂ = t + n := ⟨(e₂ - t).toNat, by omega⟩
    have amount (n : Nat) : (t + n - t).toNat = n := by omega
    rw [amount, amount]
    have positive : 0 < m₁ <<< n₁ + m₂ <<< n₂ :=
      Nat.add_pos_left (Nat.shiftLeft_pos_iff.mpr h₁.pos) _
    change UnpackedFloat.normalize _ (((m₁ <<< n₁ : Nat) : Int) + ((m₂ <<< n₂ : Nat) : Int)) t
      .positive = _
    rw [← Int.natCast_add, UnpackedFloat.normalize, Int.compare_eq_gt.mpr (by omega)]
    refine round_of_inReach hd .positive positive ?_
    have shifted (m n : Nat) : ((m <<< n : Nat) * 2 ^ t : ℚ) = m * 2 ^ (t + n) := by
      have := cast_shiftLeft m n (t + n)
      rwa [Int.add_sub_cancel] at this
    rwa [Int.toNat_natCast, Nat.cast_add, add_mul, shifted, shifted]
  change Float.ofModel (.pack (UnpackedFloat.add _ (ofParts .positive h₁).toModel.unpack
    (ofParts .positive h₂).toModel.unpack)) = _
  rw [unpack_ofParts, unpack_ofParts, sum, ofRounded]

theorem div_ofParts (hd : IsDouble m₀ e₀) (h₁ : IsDouble m₁ e₁) (h₂ : IsDouble m₂ e₂)
    (hx : InReach (m₁ * 2 ^ e₁ / (m₂ * 2 ^ e₂)) m₀ e₀) :
    ofParts .positive h₁ / ofParts .positive h₂ = ofParts .positive hd := by
  change Float.ofModel (.pack (UnpackedFloat.div _ (ofParts .positive h₁).toModel.unpack
    (ofParts .positive h₂).toModel.unpack)) = _
  rw [unpack_ofParts, unpack_ofParts, div_of_inReach h₁.pos h₂.pos hd.isRounded hx]
  rfl

end

theorem zpow_of_nonneg {p : Int} (h : 0 ≤ p) : (10 : ℚ) ^ p = 10 ^ p.natAbs := by
  obtain ⟨n, rfl⟩ := Int.eq_ofNat_of_zero_le h
  rw [zpow_natCast, Int.natAbs_natCast]

theorem zpow_of_neg {p : Int} (h : p < 0) : (10 : ℚ) ^ p = (10 ^ p.natAbs)⁻¹ := by
  obtain ⟨n, rfl⟩ : ∃ n : Nat, p = -n := ⟨p.natAbs, by omega⟩
  rw [zpow_neg, zpow_natCast, Int.natAbs_neg, Int.natAbs_natCast]

/-- A decimal in the range of doubles has a power of ten within bounds. -/
theorem ten_zpow_bounds {p : Int} (hm : 0 < m) (low : (2 : ℚ) ^ (-1075 : Int) ≤ m * 10 ^ p)
    (high : (m * 10 ^ p : ℚ) < 2 ^ (1024 : Int)) : -(2048 + m.log2) ≤ p ∧ p ≤ 2048 := by
  have one : (1 : ℚ) ≤ m := by exact_mod_cast hm
  have eight (n : Nat) : (2 : ℚ) ^ (3 * n : Int) ≤ 10 ^ n := by
    rw [zpow_mul, zpow_natCast]
    gcongr
    norm_num
  constructor
  · by_contra less
    have digits : (m : ℚ) < 2 ^ (m.log2 + 1 : Int) := by exact_mod_cast Nat.lt_log2_self
    have inverse : (10 : ℚ) ^ p ≤ 2 ^ (3 * p) := by
      rw [zpow_of_neg (by omega), show 3 * p = -(3 * p.natAbs : Int) by omega, zpow_neg]
      exact inv_anti₀ (two_zpow_pos _) (eight _)
    have above : (m * 10 ^ p : ℚ) < 2 ^ (m.log2 + 1 : Int) * 2 ^ (3 * p) :=
      mul_lt_mul digits inverse (by positivity) (two_zpow_pos _).le
    rw [← zpow_add₀ (by norm_num)] at above
    have := (zpow_lt_zpow_iff_right₀ (by norm_num)).mp (lt_of_le_of_lt low above)
    omega
  · by_contra more
    have power : (2 : ℚ) ^ (3 * p) ≤ 10 ^ p := by
      rw [zpow_of_nonneg (by omega), show 3 * p = (3 * p.natAbs : Int) by omega]
      exact eight _
    have above : (2 : ℚ) ^ (3 * p) ≤ m * 10 ^ p := by nlinarith [two_zpow_pos (3 * p)]
    have := (zpow_lt_zpow_iff_right₀ (by norm_num)).mp (lt_of_le_of_lt above high)
    omega

/-- Digits times a power of ten are read as the double whose reach they lie in. -/
theorem ofScientific_of_inReach (hd : IsDouble m₀ e₀) (hm : 0 < m) {p : Int}
    (hx : InReach (m * 10 ^ p) m₀ e₀) :
    Float.ofScientific m (p < 0) p.natAbs = ofParts .positive hd := by
  unfold Float.ofScientific
  split
  next small =>
    -- the digits and the power are doubles
    obtain ⟨m₁, e₁, hd₁, digits, places₁, value₁⟩ := toFloat_toUInt64 hm small.1
    obtain ⟨m₂, e₂, hd₂, power, places₂, value₂⟩ :=
      exactlyRepresentablePowersOfTen_eq (Nat.lt_succ_of_le small.2)
    rcases Int.lt_or_le p 0 with neg | pos
    · rw [zpow_of_neg neg, ← value₁, ← value₂, ← div_eq_mul_inv] at hx
      simp only [neg, decide_true, if_true, digits]
      exact power ▸ div_ofParts hd hd₁ hd₂ hx
    · rw [zpow_of_nonneg pos, ← value₁, ← value₂] at hx
      simp only [Int.not_lt.mpr pos, decide_false, Bool.false_eq_true, if_false, digits]
      exact power ▸ mul_ofParts .positive .positive hd.isRounded hd₁ hd₂ hx places₁
  next large =>
    obtain ⟨low, high⟩ := hx.bounds hd
    obtain ⟨least, most⟩ := ten_zpow_bounds hm low high
    have ten (n : Nat) : ((10 ^ n : Nat) : ℚ) * 2 ^ (0 : Int) = 10 ^ n := by norm_num
    have bits : 2 ^ Format.binary64.exponentBits = (2048 : Int) := rfl
    rcases Int.lt_or_le p 0 with neg | pos
    · have exponent : Int.negOfNat p.natAbs = p := by
        rw [Int.negOfNat_eq, Int.ofNat_eq_natCast]
        omega
      simp only [neg, decide_true, if_true, exponent, Float.Model.ofScientific,
        UnpackedFloat.ofScientific, bits]
      rw [dif_neg hm.ne', if_neg (by omega), if_neg (by omega), if_neg (by omega)]
      have abs : (-p).toNat = p.natAbs := by omega
      have digits : (m : ℚ) * 2 ^ (0 : Int) = m := by norm_num
      rw [zpow_of_neg neg, ← abs, ← ten, ← div_eq_mul_inv, ← digits] at hx
      exact congrArg (fun f => Float.ofModel (.pack f))
        (div_of_inReach hm (Nat.pow_pos (by decide)) hd.isRounded hx)
    · have exponent : Int.ofNat p.natAbs = p := by
        rw [Int.ofNat_eq_natCast]
        omega
      simp only [Int.not_lt.mpr pos, decide_false, Bool.false_eq_true, if_false, exponent,
        Float.Model.ofScientific, UnpackedFloat.ofScientific, bits]
      rw [dif_neg hm.ne', if_neg (by omega), if_neg (by omega), if_pos pos]
      have digits : ((m <<< 53 : Nat) : ℚ) * 2 ^ (-53 : Int) = m := by
        have := cast_shiftLeft m 53 0
        rwa [zpow_zero, mul_one] at this
      have abs : p.toNat = p.natAbs := by omega
      have shifted : 2 ^ 52 ≤ m <<< 53 := by
        rw [Nat.shiftLeft_eq]
        omega
      rw [zpow_of_nonneg pos, ← abs, ← ten, ← digits] at hx
      exact congrArg (fun f => Float.ofModel (.pack f))
        (mul_of_inReach .positive .positive (Nat.shiftLeft_pos_iff.mpr hm)
          (Nat.pow_pos (by decide)) hd.isRounded hx
          (le_trans shifted (Nat.le_mul_of_pos_right _ (Nat.pow_pos (by decide)))))

end ScriptLang.Number
