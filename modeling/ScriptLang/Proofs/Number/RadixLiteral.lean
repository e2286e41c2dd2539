import ScriptLang.Proofs.Machine.NumberLiterals
import ScriptLang.Proofs.Number.Digits

/-!
# Literals with a radix prefix

A literal with a radix prefix is its number, rounded once, as long as the number fits the
exact width. A longer one is folded in doubles. The digit that takes the number past all
places of a significand rounds it; from there on the products are exact, since the radix is
a power of two, and each digit lies below half of the last place and is dropped. So the
leading digits are rounded and the others only move the point. This gives the double nearest
to the number, unless the leading digits are half-way between a double and the next one and
something is dropped behind them.
-/

namespace ScriptLang

open Number

namespace Numeral

/-- Digits are cut off, not all of them zero, behind the place where the number is half-way
between a double with an even significand and the next one. -/
def CutsHalfway (radix n : Nat) : Prop :=
  ∃ m k j, 2 ^ 52 ≤ m ∧ m < 2 ^ 53 ∧ m % 2 = 0 ∧ 1 ≤ k ∧ 2 ^ k ≤ radix ∧
    2 * (n / radix ^ j) = (2 * m + 1) * 2 ^ k ∧ n % radix ^ j ≠ 0

variable {twos m n d k j : Nat} {x : Float}

/-- What the digits of a radix have been folded to, which is a power of two. -/
inductive Folded (twos n : Nat) : Float → Prop where
  | exact : n < 2 ^ 53 → Folded twos n (Float.ofNat n)
  | rounded {m k j : Nat} (hr : IsRounded m (k + twos * j : Nat)) :
      2 ^ 53 ≤ n / 2 ^ (twos * j) → n / 2 ^ (twos * j) < 2 ^ (53 + twos) → 1 ≤ k →
      InReach (n / 2 ^ (twos * j) : Nat) m k → Folded twos n (ofRounded hr)

/-! ## Folding -/

/-- The next digit is rounded if the number becomes too long with it. -/
theorem folded_of_exact (positive : 1 ≤ twos) (few : twos ≤ 52) (small : n < 2 ^ 53)
    (digit : d < 2 ^ twos) :
    Folded twos (n * 2 ^ twos + d) (Float.ofNat n * Float.ofNat (2 ^ twos) + Float.ofNat d) := by
  have radix : 2 ^ twos < 2 ^ 53 := Nat.pow_lt_pow_right (by decide) (by omega)
  by_cases short : n * 2 ^ twos + d < 2 ^ 53
  · rw [ofNat_mul_add (Nat.two_pow_pos twos) radix short]
    exact .exact short
  · have le : (n + 1) * 2 ^ twos ≤ 2 ^ 53 * 2 ^ twos := Nat.mul_le_mul_right _ small
    rw [← Nat.pow_add, Nat.add_mul, Nat.one_mul] at le
    have some : 0 < n := by
      by_contra none
      obtain rfl : n = 0 := by omega
      omega
    obtain ⟨m, k, one, -, places, lt, hx⟩ := exists_inReach_of_le (Nat.le_of_not_lt short)
    obtain ⟨m₁, e₁, hd, -, value⟩ := exists_isDouble some small twos (by omega)
    have hr : IsRounded m (k + twos * 0 : Nat) := ⟨by omega, lt, by omega, .inl places⟩
    have product : Float.ofNat n * Float.ofNat (2 ^ twos) = ofParts .positive hd := by
      refine (denotes_ofNat small).mul (denotes_ofNat radix) (.inr (by exact_mod_cast some)) ?_
      rw [Nat.cast_pow, Nat.cast_ofNat, ← value]
      exact (Denotes.parts hd).roundsTo
    have sum : ofParts .positive hd + Float.ofNat d = ofRounded hr := by
      refine (Denotes.parts hd).add (denotes_ofNat (by omega)) (.parts hr ?_)
      rw [value]
      exact_mod_cast hx
    rw [product, sum]
    refine .rounded hr ?_ ?_ one ?_ <;> simp only [Nat.mul_zero, pow_zero, Nat.div_one]
    · omega
    · omega
    · exact hx

/-- The point moves, and the digit is dropped. -/
theorem folded_of_rounded (positive : 1 ≤ twos) (few : twos ≤ 52)
    (digit : d < 2 ^ twos) (hr : IsRounded m (k + twos * j : Nat)) (one : 1 ≤ k) :
    ∃ hr' : IsRounded m (k + twos * (j + 1) : Nat),
      ofRounded hr * Float.ofNat (2 ^ twos) + Float.ofNat d = ofRounded hr' := by
  have radix : 2 ^ twos < 2 ^ 53 := Nat.pow_lt_pow_right (by decide) (by omega)
  have places : 2 ^ 52 ≤ m := hr.normal.resolve_right (by omega)
  have place : twos * (j + 1) = twos * j + twos := Nat.mul_succ twos j
  have hr' : IsRounded m (k + twos * (j + 1) : Nat) := ⟨hr.pos, hr.lt, by omega, .inl places⟩
  have moved : (m * 2 ^ ((k + twos * j : Nat) : Int) * (2 ^ twos : Nat) : ℚ) =
      m * 2 ^ ((k + twos * (j + 1) : Nat) : Int) := by
    rw [place, ← Nat.add_assoc, zpow_natCast, zpow_natCast, pow_add]
    push_cast
    ring
  refine ⟨hr', ?_⟩
  have number : Denotes (Float.ofNat d) d := denotes_ofNat (by omega)
  rcases Int.lt_or_le 971 ((k + twos * j : Nat) : Int) with large | inRange
  · have power : (0 : ℚ) < (2 ^ twos : Nat) := by positivity
    rw [ofRounded_of_lt hr large, (denotes_ofNat radix).infinity_mul power, number.infinity_add,
      ofRounded_of_lt hr' (by omega)]
  · have large : (1 : ℚ) ≤ m * 2 ^ ((k + twos * j : Nat) : Int) := by
      have significand : (1 : ℚ) ≤ m := by exact_mod_cast hr.pos
      have power : (1 : ℚ) ≤ 2 ^ ((k + twos * j : Nat) : Int) :=
        one_le_zpow₀ (by norm_num) (by omega)
      nlinarith
    have product : ofRounded hr * Float.ofNat (2 ^ twos) = ofRounded hr' := by
      rw [ofRounded_of_le hr inRange]
      refine (Denotes.parts _).mul (denotes_ofNat radix) (.inr large) ?_
      rw [moved]
      exact .parts hr' (inReach_self _ _)
    rw [product]
    rcases Int.lt_or_le 971 ((k + twos * (j + 1) : Nat) : Int) with large' | inRange'
    · rw [ofRounded_of_lt hr' large', number.infinity_add]
    · rw [ofRounded_of_le hr' inRange']
      have below : 2 * 2 ^ twos ≤ 2 ^ (k + twos * (j + 1)) := by
        rw [← Nat.pow_succ']
        exact Nat.pow_le_pow_right (by decide) (by omega)
      have reach : InReach (m * 2 ^ (k + twos * (j + 1)) + d : Nat) m _ :=
        inReach_add (by omega)
      refine (Denotes.parts _).add number (.parts hr' ?_)
      exact_mod_cast reach

theorem Folded.step (positive : 1 ≤ twos) (few : twos ≤ 52) (digit : d < 2 ^ twos)
    (folded : Folded twos n x) :
    Folded twos (n * 2 ^ twos + d) (x * Float.ofNat (2 ^ twos) + Float.ofNat d) := by
  cases folded with
  | exact small => exact folded_of_exact positive few small digit
  | @rounded m k j hr least most one hx =>
      obtain ⟨hr', next⟩ := folded_of_rounded positive few digit hr one
      have leading : (n * 2 ^ twos + d) / 2 ^ (twos * (j + 1)) = n / 2 ^ (twos * j) := by
        rw [Nat.mul_succ, Nat.pow_add, Nat.mul_comm (2 ^ (twos * j)), ← Nat.div_div_eq_div_mul,
          Nat.mul_comm n, Nat.mul_add_div (Nat.two_pow_pos twos), Nat.div_eq_of_lt digit,
          Nat.add_zero]
      rw [next]
      exact .rounded hr' (leading ▸ least) (leading ▸ most) one (leading ▸ hx)

/-! ## The nearest double -/

/-- There is one place where the leading digits fill a significand with less than a digit
to spare. -/
theorem leading_le {radix i : Nat} (least : 2 ^ 53 ≤ n / radix ^ j)
    (most : n / radix ^ i < 2 ^ 53 * radix) : j ≤ i := by
  by_contra after
  obtain ⟨more, rfl⟩ : ∃ more, j = i + 1 + more := ⟨j - i - 1, by omega⟩
  have fewer : n / radix ^ (i + 1 + more) ≤ n / radix ^ i / radix := by
    rw [Nat.pow_add, Nat.pow_succ, ← Nat.div_div_eq_div_mul, ← Nat.div_div_eq_div_mul]
    exact Nat.div_le_self _ _
  have small : n / radix ^ i / radix < 2 ^ 53 := Nat.div_lt_of_lt_mul (by rwa [Nat.mul_comm])
  omega

/-- A number half-way between two doubles is rounded to the even one. -/
theorem inReach_of_halfway (even : m % 2 = 0) (halfway : 2 * n = (2 * m + 1) * 2 ^ k) :
    InReach n m k := by
  have low : 4 * n = 4 * m * 2 ^ k + 2 * 2 ^ k := by
    calc 4 * n = 2 * (2 * n) := by ring
      _ = _ := by
        rw [halfway]
        ring
  rw [inReach_natCast_iff]
  omega

/-- Only the even one of two doubles reaches up to the middle. -/
theorem even_of_halfway (hx : InReach n m k) (halfway : 2 * n = (2 * m + 1) * 2 ^ k) :
    m % 2 = 0 := by
  by_contra odd
  have inside := ((inReach_natCast_iff.mp hx).2.2 (by omega)).2
  omega

theorem cutsHalfway_iff (hr : IsRounded m (k + twos * j : Nat))
    (least : 2 ^ 53 ≤ n / 2 ^ (twos * j)) (most : n / 2 ^ (twos * j) < 2 ^ (53 + twos))
    (one : 1 ≤ k) (hx : InReach (n / 2 ^ (twos * j) : Nat) m k) :
    CutsHalfway (2 ^ twos) n ↔
      2 * (n / 2 ^ (twos * j)) = (2 * m + 1) * 2 ^ k ∧ n % 2 ^ (twos * j) ≠ 0 := by
  have places : 2 ^ 52 ≤ m := hr.normal.resolve_right (by omega)
  have lt := hr.lt
  constructor
  · rintro ⟨m', k', i, places', lt', even, one', fits, halfway, rest⟩
    have two : 2 ^ 1 ≤ 2 ^ k' := Nat.pow_le_pow_right (by decide) one'
    have least' : 2 ^ 53 ≤ n / (2 ^ twos) ^ i := by nlinarith
    have most' : n / (2 ^ twos) ^ i < 2 ^ 53 * 2 ^ twos := by nlinarith
    rw [pow_mul] at least most hx ⊢
    rw [pow_add] at most
    obtain rfl : i = j := le_antisymm (leading_le least' most) (leading_le least most')
    have hx' := inReach_of_halfway even halfway
    rw [← mul_one (Nat.cast _), ← zpow_zero (2 : ℚ)] at hx hx'
    obtain ⟨rfl, same⟩ := hx'.unique (by omega) ⟨by omega, lt', by omega, .inl places'⟩
      ⟨hr.pos, lt, by omega, .inl places⟩ hx
    obtain rfl : k' = k := by exact_mod_cast same
    exact ⟨halfway, rest⟩
  · rintro ⟨halfway, rest⟩
    refine ⟨m, k, j, places, lt, even_of_halfway hx halfway, one, ?_, by rwa [← pow_mul],
      by rwa [← pow_mul]⟩
    refine Nat.pow_le_pow_right (by decide) ?_
    by_contra more
    have power : 2 ^ (twos + 1) ≤ 2 ^ k := Nat.pow_le_pow_right (by decide) (by omega)
    rw [pow_add] at most power
    nlinarith

section

variable {a i rest : Nat}

/-- Digits that are dropped leave the number in the reach, unless what stands before them is
at the very end of it. -/
theorem inReach_of_leading (one : 1 ≤ k) (hx : InReach a m k) (dropped : rest < 2 ^ i)
    (clear : ¬(2 * a = (2 * m + 1) * 2 ^ k ∧ rest ≠ 0)) :
    InReach (2 ^ i * a + rest : Nat) m (k + i : Nat) := by
  obtain ⟨low, high, inside⟩ := inReach_natCast_iff.mp hx
  have quarters : quartersBelow m (k + i : Nat) = quartersBelow m k := by
    simp only [quartersBelow]
    congr 1
    simp only [eq_iff_iff, and_congr_right_iff]
    omega
  have place := Nat.two_pow_pos i
  have even : 2 * (2 ^ (k - 1) * (2 * m + 1)) = (2 * m + 1) * 2 ^ k := by
    obtain ⟨k, rfl⟩ : ∃ p, k = p + 1 := ⟨k - 1, by omega⟩
    rw [Nat.add_sub_cancel, pow_succ]
    ring
  rw [inReach_natCast_iff, quarters, pow_add]
  have low' : 4 * m * (2 ^ k * 2 ^ i) ≤
      4 * (2 ^ i * a + rest) + quartersBelow m k * (2 ^ k * 2 ^ i) := by
    nlinarith
  by_cases exact : 2 * a = (2 * m + 1) * 2 ^ k
  · obtain rfl : rest = 0 := by
      by_contra some
      exact clear ⟨exact, some⟩
    have even : m % 2 ≠ 1 := fun odd => by
      have := (inside odd).2
      omega
    refine ⟨low', ?_, fun odd => absurd odd even⟩
    nlinarith
  · have room : 2 * a + 2 ≤ (2 * m + 1) * 2 ^ k := by omega
    have high' : 2 * (2 ^ i * a + rest) < (2 * m + 1) * (2 ^ k * 2 ^ i) := by nlinarith
    refine ⟨low', high'.le, fun odd => ⟨?_, high'⟩⟩
    have := (inside odd).1
    nlinarith

/-- Half-way between two doubles, anything dropped takes the number beyond the middle. -/
theorem between_of_halfway (one : 1 ≤ k) (halfway : 2 * a = (2 * m + 1) * 2 ^ k)
    (dropped : rest < 2 ^ i) (some : rest ≠ 0) :
    (2 * m + 1) * 2 ^ (k + i) < 2 * (2 ^ i * a + rest) ∧
      2 ^ i * a + rest < (m + 1) * 2 ^ (k + i) := by
  have two : 2 ^ 1 ≤ 2 ^ k := Nat.pow_le_pow_right (by decide) one
  have place := Nat.two_pow_pos i
  rw [pow_add]
  have middle : 2 * (2 ^ i * a) = (2 * m + 1) * (2 ^ k * 2 ^ i) := by
    calc 2 * (2 ^ i * a) = 2 ^ i * (2 * a) := by ring
      _ = _ := by
        rw [halfway]
        ring
  constructor
  · omega
  · nlinarith

end

/-- Where the exponent is in range, the number before the next double is as well. -/
theorem lt_beyondRange_iff {e : Nat} (hr : IsRounded m e) (even : m % 2 = 0)
    (above : (2 * m + 1) * 2 ^ e < 2 * n) (below : n < (m + 1) * 2 ^ e) :
    (n : ℚ) < beyondRange ↔ e ≤ 971 := by
  constructor
  · intro inRange
    by_contra large
    have beyond := beyondRange_le hr (by omega) (inReach_self m e)
    have least : m * 2 ^ e ≤ n := by nlinarith
    have least : (m * 2 ^ (e : Int) : ℚ) ≤ n := by exact_mod_cast least
    linarith
  · intro le
    have significand : (m + 1 : ℚ) ≤ 2 ^ 53 - 1 / 2 := by
      have lt := hr.lt
      have : (m + 2 : ℚ) ≤ 2 ^ 53 := by exact_mod_cast (by omega : m + 2 ≤ 2 ^ 53)
      linarith
    have power : (2 : ℚ) ^ (e : Int) ≤ 2 ^ (971 : Int) :=
      zpow_le_zpow_right₀ (by norm_num) (by omega)
    calc (n : ℚ) < (m + 1) * 2 ^ (e : Int) := by exact_mod_cast below
      _ ≤ (2 ^ 53 - 1 / 2) * 2 ^ (e : Int) :=
          mul_le_mul_of_nonneg_right significand (two_zpow_pos _).le
      _ ≤ beyondRange := mul_le_mul_of_nonneg_left power (by norm_num)

/-- Beyond the middle the next double is nearer. -/
theorem not_isNearest_of_between {e : Nat} (hr : IsRounded m e) (le : e ≤ 971)
    (even : m % 2 = 0) (above : (2 * m + 1) * 2 ^ e < 2 * n) : ¬IsNearest n (ofRounded hr) := by
  have le' : (e : Int) ≤ 971 := by omega
  have lt := hr.lt
  have next : IsDouble (m + 1) e :=
    ⟨by omega, by omega, by omega, le', hr.normal.imp (by omega) id⟩
  have here := (Denotes.parts (hr.isDouble le')).rational?
  have there := (Denotes.parts next).rational?
  rw [ofRounded_of_le hr le']
  intro near
  generalize ofParts .positive (hr.isDouble le') = x at here near
  cases near with
  | infinity =>
      have unbounded : Number.exact infinity = .infinite false := rfl
      exact absurd here (by simp [Number.rational?, unbounded])
  | number value _ nearest _ =>
      obtain rfl := Option.some.inj (value.symm.trans here)
      have sides := abs_sub_le_iff_sides.mp (nearest _ _ there)
      have power := two_zpow_pos e
      have beyond : ((2 * m + 1) * 2 ^ (e : Int) : ℚ) < 2 * n := by exact_mod_cast above
      push_cast at sides
      nlinarith

/-- What a long number is folded to is the nearest double, unless the digits are cut off
half-way between two doubles. -/
theorem Folded.isNearest_iff (folded : Folded twos n x) (large : 2 ^ 53 ≤ n) :
    IsNearest n x ↔ ¬((n : ℚ) < beyondRange ∧ CutsHalfway (2 ^ twos) n) := by
  generalize same : n = n' at folded
  cases folded with
  | exact small => omega
  | @rounded m k j hr least most one hx =>
      subst same
      rw [cutsHalfway_iff hr least most one hx]
      have dropped := Nat.mod_lt n (Nat.two_pow_pos (twos * j))
      have parts := Nat.div_add_mod n (2 ^ (twos * j))
      by_cases cut : 2 * (n / 2 ^ (twos * j)) = (2 * m + 1) * 2 ^ k ∧ n % 2 ^ (twos * j) ≠ 0
      · obtain ⟨halfway, some⟩ := cut
        have even := even_of_halfway hx halfway
        obtain ⟨above, below⟩ := between_of_halfway one halfway dropped some
        rw [parts] at above below
        rw [lt_beyondRange_iff hr even above below, and_iff_left ⟨halfway, some⟩]
        rcases Nat.lt_or_ge 971 (k + twos * j) with large | inRange
        · rw [ofRounded_of_lt hr (by omega)]
          refine iff_of_true (.infinity ?_) (by omega)
          have beyond := (lt_beyondRange_iff hr even above below).not.mpr (by omega)
          exact not_lt.mp beyond
        · exact iff_of_false (not_isNearest_of_between hr inRange even above) (not_not.mpr inRange)
      · have reach := inReach_of_leading one hx dropped cut
        rw [parts] at reach
        exact iff_of_true (reach.isNearest_ofRounded hr) fun both => cut both.2

/-! ## Literals -/

variable {radix : Nat} {cs rest : List Char}

/-- Behind the prefix of a literal there are digits of its radix, a power of two. -/
theorem Literal.radixDigits (literal : Literal cs)
    (found : radixPrefix? (cs.filter (· != '_')) = some (radix, rest)) :
    (∃ twos, 1 ≤ twos ∧ twos ≤ 4 ∧ radix = 2 ^ twos) ∧ rest ≠ [] ∧
      ∀ c ∈ rest, isDigit radix c = true := by
  have decimal {cs : List Char} (all : ∀ c ∈ cs, c = '.' ∨ c = '_' ∨ isDigit 10 c = true) :
      radixPrefix? (cs.filter (· != '_')) = none :=
    radixPrefix?_eq_none fun c hc => all c (List.mem_filter.mp hc).1
  cases literal with
  | @radix letter radix' digits known separated =>
      have mark : letter ≠ '_' := by
        rintro rfl
        cases known
      have kept : ('0' :: letter :: digits).filter (· != '_') =
          '0' :: letter :: digits.filter (· != '_') := by
        simp [mark]
      rw [kept, radixPrefix?, known] at found
      cases found
      refine ⟨?_, separated.filter⟩
      unfold radixLetter? at known
      split at known
      next => exact ⟨4, by decide, by decide, (Option.some.inj known).symm⟩
      next =>
        split at known
        next => exact ⟨3, by decide, by decide, (Option.some.inj known).symm⟩
        next =>
          split at known
          next => exact ⟨1, by decide, by decide, (Option.some.inj known).symm⟩
          next => cases known
  | decimal part =>
      rw [decimal fun c hc => .inr (part.digits_ten.mem c hc)] at found
      cases found
  | fraction part digits =>
      rw [decimal fun c hc => ?_] at found
      · cases found
      · rcases List.mem_append.mp hc with hc | hc
        · exact .inr (part.digits_ten.mem c hc)
        · exact (List.mem_cons.mp hc).imp_right (digits.mem c)

/-- Digits of a radix that is a power of two are read to the nearest double, unless they are
too many for the exact width and cut off half-way between two doubles. -/
theorem DigitsOf.readRadix? (positive : 1 ≤ twos) (few : twos ≤ 52)
    (digits : DigitsOf (2 ^ twos) cs n) (some : cs ≠ []) :
    ∃ x, readRadix? (2 ^ twos) cs = .some x ∧ (IsNearest n x ↔
      ¬(2 ^ 128 ≤ n ∧ (n : ℚ) < beyondRange ∧ CutsHalfway (2 ^ twos) n)) := by
  have start : Folded twos 0 0 := by
    have zero : Float.ofNat 0 = 0 := rfl
    exact zero ▸ .exact (by decide)
  obtain ⟨ds, values, exact, folded⟩ := digits.read (Nat.two_pow_pos twos) start
    fun n x d digit folded => folded.step positive few digit
  have nonempty : cs.isEmpty = false := by simpa using some
  rw [show 2 ^ 128 = exactBound by decide]
  by_cases fits : n < exactBound
  · rw [if_pos fits] at exact
    refine ⟨Float.ofNat n, by simp [Number.readRadix?, nonempty, values, exact], ?_⟩
    refine iff_of_true (isNearest_ofNat ?_) fun long => absurd fits (Nat.not_lt.mpr long.1)
    rcases Nat.eq_zero_or_pos n with rfl | positive
    · decide
    · have places : n.log2 < 128 := (Nat.log2_lt positive.ne').mpr fits
      omega
  · rw [if_neg fits] at exact
    refine ⟨foldDigits (2 ^ twos) ds, by simp [Number.readRadix?, nonempty, values, exact], ?_⟩
    have long : 2 ^ 53 ≤ n := le_trans (by decide) (Nat.le_of_not_lt fits)
    rw [folded.isNearest_iff long, and_iff_right (Nat.le_of_not_lt fits)]

end Numeral

open Lexer Numeral

/-- A number token with a radix prefix is read to the double nearest to the number that its
digits denote, unless the number needs more than the exact width and its leading digits are
half-way between two doubles. -/
theorem radix_literals_nearest (dollar : Bool) (source : String) :
    ∀ t ∈ (lex dollar source).tokens, t.kind = .number → ∀ radix rest,
      radixPrefix? (t.text.toList.filter (· != '_')) = some (radix, rest) →
      ∃ n x, DigitsOf radix rest n ∧ literal? t.text.toList = some x ∧ (IsNearest n x ↔
        ¬(2 ^ 128 ≤ n ∧ (n : ℚ) < beyondRange ∧ CutsHalfway radix n)) := by
  intro t ht number radix rest found
  have lexes := lexesAs_of_mem ht (by rw [number]; rfl)
  rw [number] at lexes
  obtain ⟨⟨twos, positive, few, rfl⟩, some, all⟩ := (literal_of_lexesAs lexes).radixDigits found
  obtain ⟨n, digits⟩ := exists_digitsOf all
  obtain ⟨x, read, nearest⟩ := digits.readRadix? positive (by omega) some
  exact ⟨n, x, digits, by rw [literal?, found, ← read], nearest⟩

/-- Underscores and the case of the digits do not count. -/
theorem radix_literals_nearest_separated :
    ⟨.number, "0xF_f", 1⟩ ∈ (lex false "0xF_f").tokens ∧
      radixPrefix? ("0xF_f".toList.filter (· != '_')) = some (16, ['F', 'f']) ∧
      ∃ n x, DigitsOf 16 ['F', 'f'] n ∧ literal? "0xF_f".toList = some x ∧ (IsNearest n x ↔
        ¬(2 ^ 128 ≤ n ∧ (n : ℚ) < beyondRange ∧ CutsHalfway 16 n)) := by
  have token : ⟨.number, "0xF_f", 1⟩ ∈ (lex false "0xF_f").tokens := by
    rw [show lex false "0xF_f" = ⟨[⟨.number, "0xF_f", 1⟩, ⟨.eof, " ", 1⟩], none⟩ by cbv]
    exact List.mem_cons_self
  exact ⟨token, by decide, radix_literals_nearest false "0xF_f" _ token rfl 16 _ (by decide)⟩

/-- The number is one more than half a place above a power of two. It is rounded down to the
power at the digit that is half a place, and the last digit no longer counts. -/
theorem radix_literals_nearest_halfway :
    ⟨.number, "0x100000000000008000000000000000001", 1⟩ ∈
        (lex false "0x100000000000008000000000000000001").tokens ∧
      radixPrefix? ("0x100000000000008000000000000000001".toList.filter (· != '_')) =
        some (16, "100000000000008000000000000000001".toList) ∧
      DigitsOf 16 "100000000000008000000000000000001".toList (2 ^ 128 + 2 ^ 75 + 1) ∧
      literal? "0x100000000000008000000000000000001".toList = some (Float.ofNat (2 ^ 128)) ∧
      ¬IsNearest (2 ^ 128 + 2 ^ 75 + 1 : Nat) (Float.ofNat (2 ^ 128)) := by
  have token : lex false "0x100000000000008000000000000000001" =
      ⟨[⟨.number, "0x100000000000008000000000000000001", 1⟩, ⟨.eof, " ", 1⟩], none⟩ := by
    cbv
  have hr : IsRounded (2 ^ 52) (76 : Nat) := ⟨by decide, by decide, by decide, .inl le_rfl⟩
  have power : Float.ofNat (2 ^ 128) = ofRounded hr := by
    refine ofNat_of_inReach (hr.isDouble (by decide)) (by decide) ?_
    have whole := inReach_add (m := 2 ^ 52) (k := 76) (d := 0) (by decide)
    rwa [show 2 ^ 52 * 2 ^ 76 + 0 = 2 ^ 128 by decide] at whole
  refine ⟨?_, by decide, ?_, by decide +kernel, ?_⟩
  · rw [token]
    exact List.mem_cons_self
  · have values : digitValues? 16 "100000000000008000000000000000001".toList =
        some (1 :: List.replicate 13 0 ++ 8 :: List.replicate 17 0 ++ [1]) := by decide
    exact digitsOf_of_digitValues? values
  · rw [power]
    exact not_isNearest_of_between hr (by decide) (by decide) (by decide)

end ScriptLang
