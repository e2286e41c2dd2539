import ScriptLang.Number.Reading
import ScriptLang.Proofs.Number.Shortest
import ScriptLang.Proofs.Token.Lexeme
import ScriptLang.Proofs.Token.Numeral

/-!
# Numbers in positional notation

Digits, and perhaps a point with more digits behind it: how doubles are written, what
the lexer reads as one number, and what is read back as the number that the digits
spell.
-/

namespace ScriptLang

open Lexer

namespace Number

/-! ## Digits -/

/-- The ten digits. -/
def decimalDigits : List Char := ['0', '1', '2', '3', '4', '5', '6', '7', '8', '9']

theorem mem_decimalDigits {c : Char} (h : isDecimalDigit c = true) : c ∈ decimalDigits := by
  simp only [isDecimalDigit, Bool.and_eq_true, decide_eq_true_eq, Char.le_def,
    UInt32.le_iff_toNat_le] at h
  obtain ⟨low, high⟩ := h
  change 48 ≤ c.toNat at low
  change c.toNat ≤ 57 at high
  have all : ∀ n : Fin 10, Char.ofNat (48 + n) ∈ decimalDigits := by decide
  have found := all ⟨c.toNat - 48, by omega⟩
  simp only [show 48 + (c.toNat - 48) = c.toNat by omega, Char.ofNat_toNat] at found
  exact found

/-- Digits only. -/
def AllDigits (cs : List Char) : Prop := ∀ c ∈ cs, c ∈ decimalDigits

theorem allDigits_toDigits (n : Nat) : AllDigits (Nat.toDigits 10 n) := fun _ hc =>
  mem_decimalDigits (Nat.isDigit_of_mem_toDigits (by decide) (by decide) hc)

/-- The number that digits spell. -/
theorem ofDigits_eq (cs : List Char) : ofDigits cs = Nat.ofDigitChars 10 cs 0 := by
  rw [ofDigits, Numeral.value_eq_foldr, List.foldr_map, List.foldr_reverse]
  simp only [Nat.ofDigitChars, Nat.add_comm]

theorem ofDigits_append (a b : List Char) :
    ofDigits (a ++ b) = 10 ^ b.length * ofDigits a + ofDigits b := by
  rw [ofDigits_eq, Nat.ofDigitChars_append, Nat.ofDigitChars_eq_ofDigitChars_zero, ofDigits_eq,
    ofDigits_eq]

theorem ofDigits_toDigits (n : Nat) : ofDigits (Nat.toDigits 10 n) = n := by
  rw [ofDigits_eq, Nat.ofDigitChars_ten_toDigits]

theorem ofDigits_zeros (n : Nat) : ofDigits (List.replicate n '0') = 0 := by
  rw [ofDigits_eq, Nat.ofDigitChars_replicate_zero, Nat.mul_zero]

theorem ofDigits_cons (c : Char) (cs : List Char) :
    ofDigits (c :: cs) = 10 ^ cs.length * (c.toNat - '0'.toNat) + ofDigits cs := by
  have first : ofDigits [c] = c.toNat - '0'.toNat := by
    rw [ofDigits_eq, Nat.ofDigitChars_cons, Nat.ofDigitChars_nil, Nat.mul_zero, Nat.zero_add]
  rw [← List.singleton_append, ofDigits_append, first]

/-- Zeros in front spell nothing. -/
theorem ofDigits_dropWhile (cs : List Char) : ofDigits (cs.dropWhile (· == '0')) = ofDigits cs := by
  induction cs with
  | nil => rfl
  | cons c cs ih =>
      by_cases zero : c = '0'
      · subst zero
        rw [List.dropWhile_cons_of_pos rfl, ih, ofDigits_cons, Nat.sub_self, Nat.mul_zero,
          Nat.zero_add]
      · rw [List.dropWhile_cons_of_neg (by simpa using zero)]

/-- Digits after a first one that is no zero spell at least a power of ten. -/
theorem le_ofDigits {c : Char} {cs : List Char} (hc : c ∈ decimalDigits) (nonzero : c ≠ '0') :
    10 ^ cs.length ≤ ofDigits (c :: cs) := by
  have digit : ∀ c ∈ decimalDigits, c ≠ '0' → 0 < c.toNat - '0'.toNat :=
    forall_mem_of_all (by decide)
  rw [ofDigits_cons]
  exact le_trans (Nat.le_mul_of_pos_right _ (digit c hc nonzero)) (Nat.le_add_right _ _)

theorem ofDigits_lt {cs : List Char} (h : AllDigits cs) : ofDigits cs < 10 ^ cs.length := by
  have digit : ∀ c ∈ decimalDigits, c.toNat - '0'.toNat ≤ 9 := forall_mem_of_all (by decide)
  induction cs with
  | nil =>
      rw [ofDigits_eq, Nat.ofDigitChars_nil]
      exact Nat.one_pos
  | cons c cs ih =>
      have first := digit c (h c List.mem_cons_self)
      have rest := ih fun d hd => h d (List.mem_cons_of_mem c hd)
      have bound : 10 ^ cs.length * (c.toNat - '0'.toNat) ≤ 10 ^ cs.length * 9 :=
        Nat.mul_le_mul_left _ first
      rw [ofDigits_cons, List.length_cons, Nat.pow_succ]
      omega

/-- Every double is below this power of ten. -/
theorem two_zpow_le_ten_zpow : (2 : ℚ) ^ (1024 : Int) ≤ 10 ^ (310 : Int) := by
  have whole : 2 ^ 1024 ≤ 10 ^ 310 := by decide +kernel
  exact_mod_cast whole

/-- Every positive double is above this power of ten. -/
theorem ten_zpow_le_two_zpow : (10 : ℚ) ^ (-330 : Int) ≤ 2 ^ (-1075 : Int) := by
  have whole : 2 ^ 1075 ≤ 10 ^ 330 := by decide +kernel
  have power : (2 : ℚ) ^ 1075 ≤ 10 ^ 330 := by exact_mod_cast whole
  rw [zpow_neg, zpow_neg]
  exact inv_anti₀ (by positivity) power

/-- Digits with a first one that is no zero, times a power of ten, are read as the
double whose reach they lie in. -/
theorem ofDecimal_of_inReach {m : Nat} {e : Int} (hd : IsDouble m e) {cs : List Char}
    (digits : AllDigits cs) {p : Int} (hx : InReach (ofDigits cs * 10 ^ p) m e) :
    ofDecimal (cs.dropWhile (· == '0')) p = ofParts .positive hd := by
  obtain ⟨low, high⟩ := hx.bounds hd
  rw [← ofDigits_dropWhile] at hx low high
  have kept : AllDigits (cs.dropWhile (· == '0')) :=
    fun c hc => digits c ((List.dropWhile_suffix _).subset hc)
  cases hcs : cs.dropWhile (· == '0') with
  | nil =>
      rw [hcs, ofDigits_eq, Nat.ofDigitChars_nil, Nat.cast_zero, zero_mul] at low
      exact absurd low (not_le.mpr (two_zpow_pos _))
  | cons c rest =>
      rw [hcs] at hx low high kept
      have nonzero : c ≠ '0' := by
        have head := List.head?_dropWhile_not (· == '0') cs
        rw [hcs] at head
        simpa using head
      have least : 10 ^ rest.length ≤ ofDigits (c :: rest) :=
        le_ofDigits (kept c List.mem_cons_self) nonzero
      have most := ofDigits_lt kept
      have positive : 0 < ofDigits (c :: rest) := lt_of_lt_of_le (Nat.pow_pos (by decide)) least
      have ten (n : Nat) : ((10 ^ n : Nat) : ℚ) * 10 ^ p = 10 ^ (n + p) := by
        rw [Nat.cast_pow, zpow_add₀ (by norm_num), zpow_natCast]
        rfl
      have hp : (0 : ℚ) < 10 ^ p := by positivity
      have tooSmall : ¬((c :: rest).length + p < -330) := by
        intro small
        have power : (10 : ℚ) ^ ((c :: rest).length + p) ≤ 10 ^ (-330 : Int) :=
          zpow_le_zpow_right₀ (by norm_num) small.le
        have under : (ofDigits (c :: rest) * 10 ^ p : ℚ) < 10 ^ ((c :: rest).length + p) := by
          rw [← ten]
          gcongr
        exact absurd low (not_le.mpr (under.trans_le (power.trans ten_zpow_le_two_zpow)))
      have tooLarge : ¬(310 < (c :: rest).length + p) := by
        intro large
        have power : (10 : ℚ) ^ (310 : Int) ≤ 10 ^ (rest.length + p) := by
          refine zpow_le_zpow_right₀ (by norm_num) ?_
          rw [List.length_cons] at large
          push_cast at large
          omega
        have above : (10 : ℚ) ^ (rest.length + p) ≤ ofDigits (c :: rest) * 10 ^ p := by
          rw [← ten]
          gcongr
        exact absurd high (not_lt.mpr (two_zpow_le_ten_zpow.trans (power.trans above)))
      simp only [ofDecimal, List.isEmpty_cons, Bool.false_or, decide_eq_true_eq]
      rw [if_neg tooSmall, if_neg tooLarge]
      exact ofScientific_of_inReach hd positive hx

/-! ## The notation -/

/-- A whole part and a fraction of digits. The whole part has no superfluous zero in
front. -/
structure IsPositional (whole fraction : List Char) : Prop where
  ne_nil : whole ≠ []
  digits : AllDigits (whole ++ fraction)
  head : 1 < whole.length → whole.head? ≠ some '0'

/-- The digits with a point in front of the fraction, if there is one. -/
def positional (whole fraction : List Char) : List Char :=
  if fraction.isEmpty then whole else whole ++ '.' :: fraction

namespace IsPositional

variable {whole fraction : List Char}

theorem whole_digits (h : IsPositional whole fraction) : AllDigits whole :=
  fun c hc => h.digits c (List.mem_append_left _ hc)

theorem fraction_digits (h : IsPositional whole fraction) : AllDigits fraction :=
  fun c hc => h.digits c (List.mem_append_right _ hc)

theorem digits_of_allDigits {cs : List Char} (hne : cs ≠ []) (digits : AllDigits cs) :
    Numeral.Digits 10 cs := by
  have digit : ∀ c ∈ decimalDigits, Numeral.isDigit 10 c = true := forall_mem_of_all (by decide)
  induction cs with
  | nil => exact absurd rfl hne
  | cons c cs ih =>
      obtain ⟨hc, rest⟩ := List.forall_mem_cons.mp digits
      cases cs with
      | nil => exact .last (digit c hc)
      | cons d cs => exact .digit (digit c hc) (ih (List.cons_ne_nil d cs) rest)

/-- The whole part is that of a decimal. -/
theorem decimalPart (h : IsPositional whole fraction) : Numeral.DecimalPart whole := by
  refine Numeral.decimalPart_iff.mpr ⟨?_, digits_of_allDigits h.ne_nil h.whole_digits⟩
  exact (Nat.lt_or_ge 1 whole.length).symm.imp id h.head

theorem isLiteral_positional (h : IsPositional whole fraction) :
    Numeral.isLiteral (positional whole fraction) = true := by
  refine Numeral.isLiteral_iff.mpr ?_
  unfold positional
  split
  next => exact .decimal h.decimalPart
  next some =>
    exact .fraction h.decimalPart (digits_of_allDigits (by simpa using some) h.fraction_digits)

theorem mem_positional (h : IsPositional whole fraction) :
    ∀ c ∈ positional whole fraction, c ∈ '.' :: decimalDigits := by
  intro c hc
  unfold positional at hc
  split at hc
  · exact List.mem_cons_of_mem _ (h.whole_digits c hc)
  · rcases List.mem_append.mp hc with hc | hc
    · exact List.mem_cons_of_mem _ (h.whole_digits c hc)
    · rcases List.mem_cons.mp hc with rfl | hc
      · exact List.mem_cons_self
      · exact List.mem_cons_of_mem _ (h.fraction_digits c hc)

theorem exists_cons (h : IsPositional whole fraction) :
    ∃ c rest, positional whole fraction = c :: rest ∧ c ∈ decimalDigits := by
  obtain ⟨c, digits, rfl⟩ := List.exists_cons_of_ne_nil h.ne_nil
  refine ⟨c, positional digits fraction, ?_, h.whole_digits c List.mem_cons_self⟩
  cases fraction <;> rfl

/-- No letter follows a first zero, so there is no radix prefix. -/
theorem radixPrefix?_positional (h : IsPositional whole fraction) :
    Numeral.radixPrefix? (positional whole fraction) = none := by
  have digit : ∀ c ∈ decimalDigits, Numeral.isDigit 10 c = true := forall_mem_of_all (by decide)
  refine Numeral.radixPrefix?_eq_none fun c hc => ?_
  exact (List.mem_cons.mp (h.mem_positional c hc)).imp_right fun mem => .inr (digit c mem)

/-- The number goes to its end. -/
theorem numberRun_positional (h : IsPositional whole fraction) {c : Char} {rest : List Char}
    (chars : positional whole fraction = c :: rest) : numberRun c rest = rest.length := by
  have inside : ∀ c ∈ decimalDigits, inDigits c = true ∧ isDecimal c = true :=
    forall_mem_of_all (by decide)
  have plain : hasRadix c rest = false := by
    have radix := h.radixPrefix?_positional
    rw [chars] at radix
    cases rest with
    | nil => rfl
    | cons d rest =>
        by_cases zero : c = '0'
        · subst zero
          simpa [Numeral.radixPrefix?, hasRadix] using radix
        · simp [hasRadix, zero]
  rw [numberRun_eq_decimalRun plain]
  obtain ⟨w, digits, rfl⟩ := List.exists_cons_of_ne_nil h.ne_nil
  have whole : ∀ d ∈ digits, inDigits d = true :=
    fun d hd => (inside d (h.whole_digits d (List.mem_cons_of_mem _ hd))).1
  cases fraction with
  | nil =>
      obtain ⟨-, rfl⟩ : w = c ∧ digits = rest := by simpa [positional] using chars
      simpa using decimalRun_append whole .nil
  | cons d fraction =>
      obtain ⟨-, rfl⟩ : w = c ∧ digits ++ '.' :: d :: fraction = rest := by
        simpa [positional] using chars
      have first := (inside d (h.fraction_digits d List.mem_cons_self)).2
      have others : ∀ d ∈ fraction, inDigits d = true :=
        fun d hd => (inside d (h.fraction_digits d (List.mem_cons_of_mem _ hd))).1
      have run := decimalRun_point_append whole first others .nil
      rw [List.append_nil] at run
      rw [run, List.length_append, List.length_cons, List.length_cons]
      omega

/-- The lexer reads such a number as one token. -/
theorem lexesAs_positional (dollar : Bool) (h : IsPositional whole fraction) :
    LexesAs dollar .number (String.ofList (positional whole fraction)) := by
  have plain : ∀ c ∈ decimalDigits, isBlank c = false ∧ isDecimal c = true ∧
      (c == '\n' || c == '#') = false ∧ (c == '"' || c == '\'') = false :=
    forall_mem_of_all (by decide)
  obtain ⟨c, rest, chars, hc⟩ := h.exists_cons
  obtain ⟨blank, decimal, line, quote⟩ := plain c hc
  have literal := h.isLiteral_positional
  rw [chars] at literal
  refine (lexesAs_iff rfl).mpr ⟨c, rest, by simp [chars], blank, ?_⟩
  simp [lexeme, line, quote, decimal, h.numberRun_positional chars, literal]

/-- The two parts are found again. -/
theorem readUnsigned?_positional (h : IsPositional whole fraction) :
    readUnsigned? (positional whole fraction) =
      some (ofDecimal ((whole ++ fraction).dropWhile (· == '0')) (-fraction.length)) := by
  have digit : ∀ c ∈ decimalDigits, isDecimalDigit c = true := forall_mem_of_all (by decide)
  have point : isDecimalDigit '.' = false := by decide
  have wholeDigits : ∀ c ∈ whole, isDecimalDigit c = true :=
    fun c hc => digit c (h.whole_digits c hc)
  have fractionDigits : ∀ c ∈ fraction, isDecimalDigit c = true :=
    fun c hc => digit c (h.fraction_digits c hc)
  have nonempty := h.ne_nil
  cases fraction with
  | nil =>
      have taken : whole.takeWhile isDecimalDigit = whole :=
        List.takeWhile_eq_self_iff.mpr wholeDigits
      have dropped : whole.dropWhile isDecimalDigit = [] :=
        List.dropWhile_eq_nil_iff.mpr wholeDigits
      simp [readUnsigned?, positional, taken, dropped, nonempty]
  | cons d fraction =>
      have taken : (d :: fraction).takeWhile isDecimalDigit = d :: fraction :=
        List.takeWhile_eq_self_iff.mpr fractionDigits
      have dropped : (d :: fraction).dropWhile isDecimalDigit = [] :=
        List.dropWhile_eq_nil_iff.mpr fractionDigits
      simp [readUnsigned?, positional, List.takeWhile_append_of_pos wholeDigits,
        List.dropWhile_append_of_pos wholeDigits, point, taken, dropped]

/-- A number that begins with a digit has no sign and no name. -/
theorem read?_of_digit {c : Char} (hc : c ∈ decimalDigits) (rest : List Char) :
    read? (c :: rest) = readUnsigned? (c :: rest) := by
  have plain : ∀ c ∈ decimalDigits, c ≠ '-' ∧ c ≠ '+' ∧ c.toLower ≠ 'i' ∧ c.toLower ≠ 'n' :=
    forall_mem_of_all (by decide)
  obtain ⟨minus, plus, i, n⟩ := plain c hc
  have named (name : String) (start : name.toList.head? ≠ some c.toLower) :
      String.ofList ((c :: rest).map Char.toLower) ≠ name := by
    rintro rfl
    simp at start
  have magnitude : readMagnitude? (c :: rest) = readUnsigned? (c :: rest) := by
    unfold readMagnitude?
    split
    next h => exact absurd h (named _ (by simpa using i.symm))
    next h => exact absurd h (named _ (by simpa using i.symm))
    next h => exact absurd h (named _ (by simpa using n.symm))
    next => rfl
  unfold read?
  split
  next h => simp_all
  next h => simp_all
  next => exact magnitude

/-- Such a number is read digit by digit. -/
theorem literal?_positional (h : IsPositional whole fraction) :
    literal? (positional whole fraction) =
      some (ofDecimal ((whole ++ fraction).dropWhile (· == '0')) (-fraction.length)) := by
  have noMark : ∀ c ∈ '.' :: decimalDigits, (c != '_') = true := forall_mem_of_all (by decide)
  have kept : (positional whole fraction).filter (· != '_') = positional whole fraction :=
    List.filter_eq_self.mpr fun c hc => noMark c (h.mem_positional c hc)
  obtain ⟨c, rest, chars, hc⟩ := h.exists_cons
  have unsigned := h.readUnsigned?_positional
  simp only [literal?, kept, h.radixPrefix?_positional]
  rw [chars] at unsigned ⊢
  rw [read?_of_digit hc, unsigned]

end IsPositional

end Number

end ScriptLang
