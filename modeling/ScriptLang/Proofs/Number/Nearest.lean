import ScriptLang.Proofs.Number.Whole

/-!
# The nearest double

Between a double and the next one there is nothing, so the reach of a double is where it is
nearer than every other one, and where its significand is even also the two places half-way
to its neighbours. Every natural number up to the largest doubles lies in some reach, and it
converts to that double.
-/

namespace ScriptLang.Number

open Float.Model Float.Model.UnpackedFloat

/-- The significand of the double is even. -/
def HasEvenSignificand (x : Float) : Prop :=
  ∃ negative m e, exact x = .finite negative m e ∧ m % 2 = 0

/-- Half a place above the largest double. -/
def beyondRange : ℚ := (2 ^ 53 - 1 / 2) * 2 ^ (971 : Int)

/-- The double is the one nearest to the number, and of two that are as near the one with the
even significand. Infinity stands for what is half a place or more above the largest double. -/
inductive IsNearest (q : ℚ) : Float → Prop where
  | number {x : Float} {v : ℚ} : rational? x = some v → q < beyondRange →
      (∀ y w, rational? y = some w → |v - q| ≤ |w - q|) →
      (∀ y w, rational? y = some w → w ≠ v → |v - q| = |w - q| → HasEvenSignificand x) →
      IsNearest q x
  | infinity : beyondRange ≤ q → IsNearest q infinity

variable {m m' n : Nat} {e e' : Int} {q v w : ℚ} {x y : Float}

/-! ## Neighbours -/

/-- The significand with the exponent one lower, if that is not the lowest. -/
theorem two_zpow_pred (e : Int) : (2 : ℚ) ^ e = 2 ^ (e - 1) * 2 := by
  rw [← zpow_add_one₀ (by norm_num), Int.sub_add_cancel]

/-- A double with an exponent that is not lower is a multiple of the last place. -/
theorem exists_multiple (m' : Nat) (le : e ≤ e') : ∃ n : Nat, (m' * 2 ^ e' : ℚ) = n * 2 ^ e := by
  obtain ⟨k, rfl⟩ : ∃ k : Nat, e' = e + k := ⟨(e' - e).toNat, by omega⟩
  refine ⟨m' * 2 ^ k, ?_⟩
  rw [zpow_add₀ (by norm_num), zpow_natCast]
  push_cast
  ring

/-- A double with a lower exponent does not reach the significands of the higher one. -/
theorem IsDouble.le_of_lt (hd' : IsDouble m' e') (lt : e' < e) :
    (m' * 2 ^ e' : ℚ) ≤ (2 ^ 52 - 1 / 2) * 2 ^ e := by
  have significand : (m' + 1 : ℚ) ≤ 2 ^ 53 := by exact_mod_cast hd'.lt
  have power : (2 : ℚ) ^ e' ≤ 2 ^ (e - 1) := zpow_le_zpow_right₀ (by norm_num) (by omega)
  have positive := two_zpow_pos (e - 1)
  calc (m' * 2 ^ e' : ℚ) ≤ (2 ^ 53 - 1) * 2 ^ (e - 1) := by
        gcongr
        linarith
    _ = _ := by
        rw [two_zpow_pred e]
        ring

theorem IsDouble.normal_of_lt (hd : IsDouble m e) (hd' : IsDouble m' e') (lt : e' < e) :
    2 ^ 52 ≤ m ∧ e ≠ -1074 := by
  have least := hd'.min_le
  exact ⟨hd.normal.resolve_right (by omega), by omega⟩

/-- Above a double nothing comes before the next place. -/
theorem IsDouble.above (hd : IsDouble m e) (hd' : IsDouble m' e')
    (lt : (m * 2 ^ e : ℚ) < m' * 2 ^ e') : ((m + 1) * 2 ^ e : ℚ) ≤ m' * 2 ^ e' := by
  have positive := two_zpow_pos e
  rcases Int.lt_or_le e' e with lower | notLower
  · have below := hd'.le_of_lt lower
    have significand : (2 ^ 52 : ℚ) ≤ m := by exact_mod_cast (hd.normal_of_lt hd' lower).1
    nlinarith
  · obtain ⟨n, same⟩ := exists_multiple m' notLower
    rw [same] at lt ⊢
    have significands : m < n := by exact_mod_cast lt_of_mul_lt_mul_right lt positive.le
    have next : (m + 1 : ℚ) ≤ n := by exact_mod_cast significands
    gcongr

/-- Below a double nothing comes before the previous place, which is half as far away below a
power of two. -/
theorem IsDouble.below (hd : IsDouble m e) (hd' : IsDouble m' e')
    (lt : (m' * 2 ^ e' : ℚ) < m * 2 ^ e) :
    (m' * 2 ^ e' : ℚ) ≤ (m - quartersBelow m e / 2) * 2 ^ e := by
  have positive := two_zpow_pos e
  have quarters := quartersBelow_le m e
  rcases Int.lt_or_le e' e with lower | notLower
  · have below := hd'.le_of_lt lower
    obtain ⟨normal, notTiny⟩ := hd.normal_of_lt hd' lower
    by_cases power : m = 2 ^ 52
    · have one : quartersBelow m e = 1 := if_pos ⟨power, notTiny⟩
      rw [one, power]
      push_cast
      exact below
    · have significand : (2 ^ 52 + 1 : ℚ) ≤ m := by
        exact_mod_cast Nat.lt_of_le_of_ne normal (Ne.symm power)
      nlinarith
  · obtain ⟨n, same⟩ := exists_multiple m' notLower
    rw [same] at lt ⊢
    have significands : n < m := by exact_mod_cast lt_of_mul_lt_mul_right lt positive.le
    have previous : (n + 1 : ℚ) ≤ m := by exact_mod_cast significands
    gcongr
    linarith

/-- Every other double lies outside, on one side or the other. -/
theorem IsDouble.apart (hd : IsDouble m e) (number : rational? y = some w)
    (other : w ≠ m * 2 ^ e) :
    w ≤ (m - quartersBelow m e / 2) * 2 ^ e ∨ (m + 1) * 2 ^ e ≤ w := by
  have positive := two_zpow_pos e
  have significand : (1 : ℚ) ≤ m := by exact_mod_cast hd.pos
  have quarters := quartersBelow_le m e
  have low : 0 ≤ (m - quartersBelow m e / 2 : ℚ) * 2 ^ e :=
    mul_nonneg (by linarith) positive.le
  rcases rational?_cases number with ⟨-, rfl⟩ | ⟨s, m', e', hd', -, rfl⟩
  · exact .inl low
  · cases s with
    | negative =>
        have magnitude : (0 : ℚ) ≤ m' * 2 ^ e' := by positivity
        rw [isNegative, if_pos rfl, neg_one_mul]
        exact .inl (le_trans (neg_nonpos.mpr magnitude) low)
    | positive =>
        rw [isNegative, if_neg Bool.false_ne_true, one_mul] at other ⊢
        exact (lt_or_gt_of_ne other).imp (hd.below hd') (hd.above hd')

/-! ## Reach -/

/-- Where the exponent is too large, what lies in the reach is beyond all doubles. -/
theorem beyondRange_le (hr : IsRounded m e) (large : 971 < e) (hx : InReach q m e) :
    beyondRange ≤ q := by
  have normal := hr.normal.resolve_right (by omega)
  have significand : (2 ^ 52 - 1 / 4 : ℚ) ≤ m - quartersBelow m e / 4 := by
    unfold quartersBelow
    split
    next least =>
      rw [least.1]
      norm_num
    next other =>
      have next : (2 ^ 52 + 1 : ℚ) ≤ m := by
        exact_mod_cast (by omega : 2 ^ 52 + 1 ≤ m)
      push_cast
      linarith
  have power : (2 : ℚ) ^ (972 : Int) ≤ 2 ^ e := zpow_le_zpow_right₀ (by norm_num) large
  have last : (2 : ℚ) ^ (972 : Int) = 2 ^ (971 : Int) * 2 := two_zpow_pred 972
  calc beyondRange = (2 ^ 52 - 1 / 4) * 2 ^ (972 : Int) := by
        rw [beyondRange, last]
        ring
    _ ≤ (2 ^ 52 - 1 / 4) * 2 ^ e := mul_le_mul_of_nonneg_left power (by norm_num)
    _ ≤ (m - quartersBelow m e / 4) * 2 ^ e :=
        mul_le_mul_of_nonneg_right significand (two_zpow_pos e).le
    _ ≤ q := hx.low

/-- What lies in the reach of a double is not beyond all of them. -/
theorem InReach.lt_beyondRange (hd : IsDouble m e) (hx : InReach q m e) : q < beyondRange := by
  have power : (2 : ℚ) ^ e ≤ 2 ^ (971 : Int) := zpow_le_zpow_right₀ (by norm_num) hd.le_max
  have upper : ((2 ^ 53 - 1 / 2) * 2 ^ e : ℚ) ≤ beyondRange :=
    mul_le_mul_of_nonneg_left power (by norm_num)
  have positive := two_zpow_pos e
  refine lt_of_lt_of_le ?_ upper
  by_cases last : m = 2 ^ 53 - 1
  · have inside := (hx.inside (by rw [last]; decide)).2
    have significand : (m + 1 / 2 : ℚ) = 2 ^ 53 - 1 / 2 := by
      rw [last]
      norm_num
    rwa [significand] at inside
  · have significand : (m + 2 : ℚ) ≤ 2 ^ 53 := by
      have lt := hd.lt
      exact_mod_cast (by omega : m + 2 ≤ 2 ^ 53)
    have lower : (m + 1 / 2 : ℚ) * 2 ^ e < (2 ^ 53 - 1 / 2) * 2 ^ e := by
      gcongr
      linarith
    exact lt_of_le_of_lt hx.high lower

/-- Of two numbers the one on the same side of the middle is at least as near. -/
theorem abs_sub_le_iff_sides : |v - q| ≤ |w - q| ↔ (v - w) * (v + w - 2 * q) ≤ 0 := by
  rw [← sq_le_sq]
  constructor <;> intro h <;> linarith

/-- Two numbers that are as far away have the third one half-way between them. -/
theorem add_eq_of_abs_sub_eq (other : w ≠ v) (tie : |v - q| = |w - q|) : v + w = 2 * q := by
  have squares : (v - w) * (v + w - 2 * q) = 0 := by
    have same := sq_eq_sq_iff_abs_eq_abs _ _ |>.mpr tie
    linarith
  have sum := (mul_eq_zero.mp squares).resolve_left (sub_ne_zero.mpr other.symm)
  linarith

/-- A double is the nearest one to what lies in its reach. -/
theorem InReach.isNearest (hd : IsDouble m e) (hx : InReach q m e) :
    IsNearest q (ofParts .positive hd) := by
  have number : rational? (ofParts .positive hd) = some (m * 2 ^ e : ℚ) := by
    simp [rational?_ofParts, isNegative]
  have positive := two_zpow_pos e
  have quarters : (0 : ℚ) ≤ quartersBelow m e := Nat.cast_nonneg _
  have low := hx.low
  have high := hx.high
  refine .number number (hx.lt_beyondRange hd) (fun y w other => ?_) fun y w other apart tie => ?_
  · refine abs_sub_le_iff_sides.mpr ?_
    rcases eq_or_ne w (m * 2 ^ e) with rfl | apart
    · simp
    rcases hd.apart other apart with below | above
    · exact mul_nonpos_of_nonneg_of_nonpos (by nlinarith) (by linarith)
    · exact mul_nonpos_of_nonpos_of_nonneg (by linarith) (by linarith)
  · have middle := add_eq_of_abs_sub_eq apart tie
    refine ⟨false, m, e, by rw [exact, unpack_ofParts]; rfl, ?_⟩
    by_contra odd
    obtain ⟨above, below⟩ := hx.inside (by omega)
    rcases hd.apart other apart with left | right
    · linarith
    · linarith

/-! ## Natural numbers -/

variable {k : Nat}

/-- The reach of a double with places before the point only, in natural numbers. -/
theorem inReach_natCast_iff : InReach n m k ↔
    4 * m * 2 ^ k ≤ 4 * n + quartersBelow m k * 2 ^ k ∧ 2 * n ≤ (2 * m + 1) * 2 ^ k ∧
      (m % 2 = 1 → 4 * m * 2 ^ k < 4 * n + quartersBelow m k * 2 ^ k ∧
        2 * n < (2 * m + 1) * 2 ^ k) := by
  have low : 4 * m * 2 ^ k ≤ 4 * n + quartersBelow m k * 2 ^ k ↔
      (m - quartersBelow m k / 4 : ℚ) * 2 ^ (k : Int) ≤ n := by
    rw [zpow_natCast, ← Nat.cast_le (α := ℚ)]
    push_cast
    constructor <;> intro h <;> linarith
  have low' : 4 * m * 2 ^ k < 4 * n + quartersBelow m k * 2 ^ k ↔
      (m - quartersBelow m k / 4 : ℚ) * 2 ^ (k : Int) < n := by
    rw [zpow_natCast, ← Nat.cast_lt (α := ℚ)]
    push_cast
    constructor <;> intro h <;> linarith
  have high : 2 * n ≤ (2 * m + 1) * 2 ^ k ↔ (n : ℚ) ≤ (m + 1 / 2) * 2 ^ (k : Int) := by
    rw [zpow_natCast, ← Nat.cast_le (α := ℚ)]
    push_cast
    constructor <;> intro h <;> linarith
  have high' : 2 * n < (2 * m + 1) * 2 ^ k ↔ (n : ℚ) < (m + 1 / 2) * 2 ^ (k : Int) := by
    rw [zpow_natCast, ← Nat.cast_lt (α := ℚ)]
    push_cast
    constructor <;> intro h <;> linarith
  rw [low, low', high, high']
  exact ⟨fun h => ⟨h.low, h.high, h.inside⟩, fun h => ⟨h.1, h.2.1, h.2.2⟩⟩

/-- What is less than half of the last place makes no difference. -/
theorem inReach_add {d : Nat} (lt : 2 * d < 2 ^ k) : InReach (m * 2 ^ k + d : Nat) m k := by
  have quarters : 0 < quartersBelow m k * 2 ^ k := by
    unfold quartersBelow
    split <;> positivity
  have low : 4 * m * 2 ^ k = 4 * (m * 2 ^ k) := by ring
  have high : (2 * m + 1) * 2 ^ k = 2 * (m * 2 ^ k) + 2 ^ k := by ring
  rw [inReach_natCast_iff]
  omega

/-- Every natural number with more places than a significand lies in the reach of one with
places before the point only, were there no largest exponent. -/
theorem exists_inReach_of_le (large : 2 ^ 53 ≤ n) :
    ∃ m k : Nat, 1 ≤ k ∧ k ≤ n.log2 - 51 ∧ 2 ^ 52 ≤ m ∧ m < 2 ^ 53 ∧ InReach n m k := by
  have positive : n ≠ 0 := by omega
  have places : 53 ≤ n.log2 := (Nat.le_log2 positive).mpr large
  obtain ⟨k, hk⟩ : ∃ k, n.log2 = 53 + k := ⟨n.log2 - 53, by omega⟩
  have least : 2 ^ 52 * 2 ^ (k + 1) ≤ n := by
    rw [← Nat.pow_add]
    exact (Nat.le_log2 positive).mp (by omega)
  have most : n < 2 ^ 53 * 2 ^ (k + 1) := by
    rw [← Nat.pow_add]
    exact (Nat.log2_lt positive).mp (by omega)
  have unit : 2 ^ (k + 1) = 2 * 2 ^ k := by rw [Nat.pow_succ, Nat.mul_comm]
  have parts := Nat.div_add_mod n (2 ^ (k + 1))
  have small := Nat.mod_lt n (Nat.two_pow_pos (k + 1))
  have low : 2 ^ 52 ≤ n / 2 ^ (k + 1) := (Nat.le_div_iff_mul_le (Nat.two_pow_pos _)).mpr least
  have high : n / 2 ^ (k + 1) < 2 ^ 53 := (Nat.div_lt_iff_lt_mul (Nat.two_pow_pos _)).mpr most
  generalize n / 2 ^ (k + 1) = m at *
  generalize n % 2 ^ (k + 1) = rest at *
  have product : 4 * m * 2 ^ (k + 1) = 4 * (2 ^ (k + 1) * m) := by ring
  have half := Nat.two_pow_pos k
  by_cases down : rest < 2 ^ k ∨ rest = 2 ^ k ∧ m % 2 = 0
  · refine ⟨m, k + 1, by omega, by omega, low, high, inReach_natCast_iff.mpr ?_⟩
    have next : (2 * m + 1) * 2 ^ (k + 1) = 2 * (2 ^ (k + 1) * m) + 2 ^ (k + 1) := by ring
    have quarters : 0 < quartersBelow m (k + 1 : Nat) * 2 ^ (k + 1) := by
      unfold quartersBelow
      split <;> positivity
    omega
  · by_cases last : m + 1 = 2 ^ 53
    · refine ⟨2 ^ 52, k + 2, by omega, by omega, by omega, by omega, inReach_natCast_iff.mpr ?_⟩
      have one : quartersBelow (2 ^ 52) (k + 2 : Nat) = 1 := if_pos ⟨rfl, by omega⟩
      have unit' : 2 ^ (k + 2) = 2 * 2 ^ (k + 1) := by rw [Nat.pow_succ, Nat.mul_comm]
      obtain rfl : m = 2 ^ 53 - 1 := by omega
      rw [one, unit']
      omega
    · refine ⟨m + 1, k + 1, by omega, by omega, by omega, by omega, inReach_natCast_iff.mpr ?_⟩
      have two : quartersBelow (m + 1) (k + 1 : Nat) = 2 := if_neg (by omega)
      have product' : 4 * (m + 1) * 2 ^ (k + 1) = 4 * (2 ^ (k + 1) * m) + 4 * 2 ^ (k + 1) := by ring
      have next : (2 * (m + 1) + 1) * 2 ^ (k + 1) = 2 * (2 ^ (k + 1) * m) + 3 * 2 ^ (k + 1) := by
        ring
      rw [two, product', next]
      omega

/-- Every natural number in the range of doubles lies in the reach of one. -/
theorem exists_inReach_natCast (positive : 0 < n) (lt : n.log2 < 1023) :
    ∃ m e, IsDouble m e ∧ InReach n m e := by
  rcases Nat.lt_or_ge n (2 ^ 53) with small | large
  · obtain ⟨m, e, hd, -, value⟩ := exists_isDouble positive small 0 (by omega)
    rw [pow_zero, mul_one] at value
    exact ⟨m, e, hd, value ▸ inReach_self m e⟩
  · obtain ⟨m, k, -, le, low, high, hx⟩ := exists_inReach_of_le large
    exact ⟨m, k, ⟨by omega, high, by omega, by omega, .inl low⟩, hx⟩

/-- A natural number converts to the double in whose reach it lies. -/
theorem ofNat_of_inReach (hd : IsDouble m e) (positive : 0 < n) (hx : InReach n m e) :
    Float.ofNat n = ofParts .positive hd :=
  ofScientific_of_inReach hd positive (p := 0) (by rwa [zpow_zero, mul_one])

/-- A natural number in the range of doubles converts to the nearest one. -/
theorem isNearest_ofNat (lt : n.log2 < 1023) : IsNearest n (Float.ofNat n) := by
  rcases Nat.eq_zero_or_pos n with rfl | positive
  · have number := rational?_ofNat (i := 0) (by decide)
    refine .number number ?_ (fun y w _ => ?_) fun y w _ other tie => ?_
    · unfold beyondRange
      positivity
    · simp
    · rw [Nat.cast_zero, sub_zero, sub_zero, abs_zero] at tie
      exact absurd (abs_eq_zero.mp tie.symm) (by simpa using other)
  · obtain ⟨m, e, hd, hx⟩ := exists_inReach_natCast positive lt
    rw [ofNat_of_inReach hd positive hx]
    exact hx.isNearest hd

end ScriptLang.Number
