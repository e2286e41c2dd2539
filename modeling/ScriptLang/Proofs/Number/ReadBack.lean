import ScriptLang.Proofs.Number.Positional

/-!
# Numbers that are read back

A finite double is written in positional notation, behind a sign if it is below zero,
and its digits are read as the double again. Both zeros are written as the positive
one.
-/

namespace ScriptLang

namespace Number

/-! ## The text of a decimal -/

/-- The digits of a positive number do not begin with a zero. -/
theorem head?_toDigits {n : Nat} (h : 0 < n) : (Nat.toDigits 10 n).head? ≠ some '0' := by
  intro zero
  obtain ⟨rest, digits⟩ := List.head?_eq_some_iff.mp zero
  have value := ofDigits_toDigits n
  rw [digits, ofDigits_cons, Nat.sub_self, Nat.mul_zero, Nat.zero_add] at value
  have below : n < 10 ^ rest.length := by
    rw [← value]
    refine ofDigits_lt fun c hc => allDigits_toDigits n c ?_
    rw [digits]
    exact List.mem_cons_of_mem _ hc
  rcases Nat.eq_zero_or_pos rest.length with none | some
  · rw [none] at below
    omega
  · have short := (Nat.length_toDigits_le_iff (by decide) some).mpr below
    rw [digits, List.length_cons] at short
    omega

/-- What is dropped at the end are zeros. -/
theorem exists_dropEndZeros (cs : List Char) :
    ∃ k, cs = dropEndZeros cs ++ List.replicate k '0' := by
  have zeros : ∀ c ∈ cs.reverse.takeWhile (· == '0'), c = '0' :=
    fun c hc => by simpa using List.mem_takeWhile_imp hc
  have parts := congrArg List.reverse (List.takeWhile_append_dropWhile (p := (· == '0'))
    (l := cs.reverse))
  rw [List.eq_replicate_of_mem zeros, List.reverse_append, List.reverse_replicate,
    List.reverse_reverse] at parts
  exact ⟨_, parts.symm⟩

/-- A whole number is written with zeros behind its digits. -/
theorem isPositional_whole {n : Nat} (h : 0 < n) (k : Nat) :
    IsPositional (Nat.toDigits 10 n ++ List.replicate k '0') [] where
  ne_nil := by simp
  digits := by
    intro c hc
    rw [List.append_nil] at hc
    rcases List.mem_append.mp hc with hc | hc
    · exact allDigits_toDigits n c hc
    · obtain rfl := List.eq_of_mem_replicate hc
      decide
  head _ := by
    rw [List.head?_append_of_ne_nil _ Nat.toDigits_ne_nil]
    exact head?_toDigits h

/-- Digits with zeros in front of them, as many as it takes for one of them to stand in
front of the point, are split at the point. -/
theorem isPositional_split {n : Nat} (h : 0 < n) (places : Nat) {padded : List Char}
    (hp : padded =
      List.replicate (places + 1 - (Nat.toDigits 10 n).length) '0' ++ Nat.toDigits 10 n) :
    IsPositional (padded.take (padded.length - places))
      (dropEndZeros (padded.drop (padded.length - places))) := by
  have length : padded.length = max (places + 1) (Nat.toDigits 10 n).length := by
    rw [hp, List.length_append, List.length_replicate]
    omega
  have digits : AllDigits padded := by
    intro c hc
    rw [hp] at hc
    rcases List.mem_append.mp hc with hc | hc
    · obtain rfl := List.eq_of_mem_replicate hc
      decide
    · exact allDigits_toDigits n c hc
  obtain ⟨k, zeros⟩ := exists_dropEndZeros (padded.drop (padded.length - places))
  refine ⟨fun nil => ?_, fun c hc => ?_, fun long => ?_⟩
  · have := congrArg List.length nil
    rw [List.length_take, List.length_nil] at this
    omega
  · refine digits c ?_
    rw [← List.take_append_drop (padded.length - places) padded, zeros, ← List.append_assoc]
    exact List.mem_append_left _ hc
  · -- more than one digit before the point: none of them was put there
    rw [List.length_take] at long
    have none : places + 1 - (Nat.toDigits 10 n).length = 0 := by omega
    rw [none, List.replicate_zero, List.nil_append] at hp
    rw [List.head?_take, if_neg (by omega), hp]
    exact head?_toDigits h

/-- A positive decimal is written in positional notation. -/
theorem Decimal.exists_positional (d : Decimal) (hpos : 0 < d.digits) :
    ∃ whole fraction, IsPositional whole fraction ∧
      d.text = String.ofList (positional whole fraction) ∧
        (ofDigits (whole ++ fraction) * 10 ^ (-fraction.length : Int) : ℚ) = d.value := by
  obtain ⟨n, exponent⟩ := d
  unfold Decimal.text
  dsimp only at hpos ⊢
  split
  next whole =>
    obtain ⟨k, rfl⟩ := Int.eq_ofNat_of_zero_le whole
    refine ⟨_, [], isPositional_whole hpos k, rfl, ?_⟩
    rw [List.append_nil, ofDigits_append, ofDigits_toDigits, ofDigits_zeros, Decimal.value]
    simp [mul_comm]
  next fraction =>
    obtain ⟨places, rfl⟩ : ∃ k : Nat, exponent = -k := ⟨(-exponent).toNat, by omega⟩
    rw [Int.neg_neg, Int.toNat_natCast]
    generalize hp : List.replicate (places + 1 - (Nat.toDigits 10 n).length) '0' ++
      Nat.toDigits 10 n = padded
    refine ⟨_, _, isPositional_split hpos places hp.symm, rfl, ?_⟩
    have value : ofDigits padded = n := by
      rw [← hp, ofDigits_append, ofDigits_zeros, ofDigits_toDigits, Nat.mul_zero, Nat.zero_add]
    obtain ⟨k, zeros⟩ := exists_dropEndZeros (padded.drop (padded.length - places))
    have lengths := congrArg List.length zeros
    rw [← List.take_append_drop (padded.length - places) padded, zeros, ← List.append_assoc,
      ofDigits_append, ofDigits_zeros, List.length_replicate, Nat.add_zero] at value
    rw [List.length_drop, List.length_append, List.length_replicate] at lengths
    have enough : places ≤ padded.length := by
      rw [← hp, List.length_append, List.length_replicate]
      omega
    generalize dropEndZeros (padded.drop (padded.length - places)) = fraction at *
    obtain rfl : places = fraction.length + k := by omega
    rw [Decimal.value, ← value, Nat.cast_mul, Nat.cast_pow, Nat.cast_add, neg_add,
      zpow_add₀ (by norm_num), zpow_neg (10 : ℚ) k, zpow_natCast]
    have nonzero : (10 : ℚ) ^ k ≠ 0 := by positivity
    field_simp
    norm_cast

/-! ## Equality of doubles -/

/-- What equals a finite double is finite. -/
theorem isFinite_of_beq {x y : Float} (hx : x.isFinite = true) (h : (x == y) = true) :
    y.isFinite = true := by
  obtain ⟨-, -, rfl | ⟨-, rfl⟩ | ⟨-, rfl⟩⟩ := Float.beq_iff_ne_nan_and_eq.mp h
  · exact hx
  · decide
  · decide

theorem beq_self {x : Float} (hx : x.isFinite = true) : (x == x) = true := by
  refine Float.beq_self_iff.mpr ?_
  rintro rfl
  exact absurd hx (by decide)

section

open Float.Model Float.Model.UnpackedFloat

/-! ## The text of a double -/

variable {m : Nat} {e : Int}

/-- The shortest decimal of a double is one token, and is read as the double. -/
theorem literal?_shortestDecimal (dollar : Bool) (hd : IsDouble m e) :
    LexesAs dollar .number (shortestDecimal m e).text ∧
      literal? (shortestDecimal m e).text.toList = some (ofParts .positive hd) := by
  obtain ⟨whole, fraction, positional, text, value⟩ :=
    (shortestDecimal m e).exists_positional (digits_shortestDecimal_pos hd)
  have hx := inReach_shortestDecimal hd
  rw [← value] at hx
  rw [text, String.toList_ofList, positional.literal?_positional,
    ofDecimal_of_inReach hd positional.digits hx]
  exact ⟨positional.lexesAs_positional dollar, rfl⟩

theorem text_ofParts (s : Sign) (hd : IsDouble m e) :
    text (ofParts s hd) =
      (if isNegative s then "-" else "") ++ (shortestDecimal m e).text := by
  have parts : exact (ofParts s hd) = .finite (isNegative s) m e := by
    rw [exact, unpack_ofParts]
  simp only [text, parts, if_neg hd.pos.ne']

theorem neg_ofParts (hd : IsDouble m e) : -ofParts .positive hd = ofParts .negative hd := by
  change Float.ofModel (.pack (ofParts .positive hd).toModel.unpack.neg) = _
  rw [unpack_ofParts]
  rfl

/-- The text of a finite double is one number, behind a sign where the double is below
zero, and that number is read as its magnitude. -/
theorem exists_literal (dollar : Bool) {x : Float} (hx : x.isFinite = true) :
    ∃ digits y, LexesAs dollar .number digits ∧ literal? digits.toList = some y ∧
      (text x = digits ∧ (x == y) = true ∧ text y = text x ∨ text x = "-" ++ digits ∧ -y = x) := by
  change x.toModel.unpack.isFinite = true at hx
  cases hu : x.toModel.unpack with
  | notANumber =>
      rw [hu] at hx
      exact Bool.noConfusion hx
  | infinity s =>
      rw [hu] at hx
      exact Bool.noConfusion hx
  | zero s =>
      have digits : IsPositional ['0'] [] := ⟨by simp, by simp [AllDigits, decimalDigits], by simp⟩
      have zero : (0 : Float).toModel.unpack = .zero .positive := rfl
      refine ⟨"0", 0, digits.lexesAs_positional dollar, digits.literal?_positional, .inl ?_⟩
      refine ⟨by simp [text, exact, hu], ?_, by simp [text, exact, hu, zero]⟩
      change (x.toModel.unpack.compare (0 : Float).toModel.unpack == some .eq) = true
      rw [hu, zero]
      rfl
  | finite s m e hm =>
      obtain ⟨hd, rfl⟩ := eq_ofParts hu
      obtain ⟨lexes, literal⟩ := literal?_shortestDecimal dollar hd
      refine ⟨_, _, lexes, literal, ?_⟩
      cases s with
      | positive =>
          left
          have written := text_ofParts .positive hd
          rw [isNegative, if_neg Bool.false_ne_true, String.empty_append] at written
          exact ⟨written, beq_self hx, rfl⟩
      | negative =>
          right
          exact ⟨text_ofParts .negative hd, neg_ofParts hd⟩

end

end Number

end ScriptLang
