import ScriptLang.Builtin.Call
import ScriptLang.Proofs.Number.Digits

/-!
# Integers as text in a base

The integer part of a double is written in lowercase digits with a minus before what is below
zero, exactly as far as it fits the exact width. Text is read if it is digits with at most one
sign before them and white space around, and below two to the fifty-third reading gives back
the integer that was written.
-/

namespace ScriptLang

open Number Numeral

variable {base n d : Nat} {z z' : Int} {c : Char} {cs : List Char} {x : Float} {q : ℚ}

/-! ## Text of integers -/

/-- The characters are the integer in the base: canonical digits, behind a minus if it is below
zero. -/
inductive IsIntegerText (base : Nat) : Int → List Char → Prop where
  | natural {n : Nat} {cs : List Char} : DigitsOf base cs n → IsCanonical cs →
      IsIntegerText base n cs
  | negative {n : Nat} {cs : List Char} : 0 < n → DigitsOf base cs n → IsCanonical cs →
      IsIntegerText base (-n) ('-' :: cs)

/-- Digits of the base, with at most one sign before them. -/
inductive IsSigned (base : Nat) : List Char → Prop where
  | plain {cs : List Char} : cs ≠ [] → (∀ c ∈ cs, isDigit base c = true) → IsSigned base cs
  | signed {sign : Char} {cs : List Char} : sign = '-' ∨ sign = '+' → cs ≠ [] →
      (∀ c ∈ cs, isDigit base c = true) → IsSigned base (sign :: cs)

/-- There is white space around the characters and nothing else. -/
def IsSurrounded (whole core : List Char) : Prop :=
  ∃ before after, whole = before ++ core ++ after ∧ (∀ c ∈ before, Text.isBlank c = true) ∧
    ∀ c ∈ after, Text.isBlank c = true

/-- The value is a base that integers are written in. -/
structure IsBase (v : Value) (base : Nat) : Prop where
  number : rational? v.toNumber = some (base : ℚ)
  two_le : 2 ≤ base
  le_most : base ≤ 36

theorem ne_sign_of_isDigit (digit : isDigit base c = true) : c ≠ '-' ∧ c ≠ '+' := by
  constructor
  · rintro rfl
    cases digit
  · rintro rfl
    cases digit

/-- No text is that of two integers. -/
theorem IsIntegerText.unique (text : IsIntegerText base z cs) (text' : IsIntegerText base z' cs) :
    z = z' := by
  cases text with
  | natural digits =>
      cases text' with
      | natural digits' => rw [digits.unique digits']
      | negative => exact absurd rfl (ne_sign_of_isDigit (digits.isDigit _ List.mem_cons_self)).1
  | negative _ digits =>
      cases text' with
      | natural digits' =>
          exact absurd rfl (ne_sign_of_isDigit (digits'.isDigit _ List.mem_cons_self)).1
      | negative _ digits' => rw [digits.unique digits']

/-! ## Bases -/

theorem IsBase.base_eq {v : Value} (hb : IsBase v base) : Builtin.base v.toNumber = .ok base := by
  have number : integer? v.toNumber = some (base : Int) :=
    integer?_eq_some_iff.mpr (by exact_mod_cast hb.number)
  have bounds : 2 ≤ base ∧ base ≤ 36 := ⟨hb.two_le, hb.le_most⟩
  simp [Builtin.base, number, bounds]

theorem isBase_of_base_eq {v : Value} (h : Builtin.base v.toNumber = .ok base) : IsBase v base := by
  unfold Builtin.base at h
  split at h
  next n number =>
    split at h
    next bounds =>
      cases h
      have number := integer?_eq_some_iff.mp number
      exact ⟨by exact_mod_cast number, bounds.1, bounds.2⟩
    next => cases h
  next => cases h

theorem isBase_ofNat (two : 2 ≤ base) (most : base ≤ 36) :
    IsBase (.num (Float.ofNat base)) base :=
  ⟨rational?_ofNat (by omega), two, most⟩

/-! ## Writing -/

theorem integerPart?_of_rational? (number : rational? x = some q) :
    integerPart? x = some (wholePart q) := by
  cases parts : exact x with
  | finite negative m e =>
      rw [rational?, parts] at number
      rw [integerPart?, parts, ← Option.some.inj number]
      exact congrArg some (signed_truncated negative m e)
  | _ =>
      rw [rational?, parts] at number
      cases number

theorem wholePart_intCast (n : Int) : wholePart (n : ℚ) = n := by
  unfold wholePart
  split
  · exact Int.ceil_intCast n
  · exact Int.floor_intCast n

/-- The integer part is written as far as it fits the exact width. -/
theorem exists_isIntegerText (two : 2 ≤ base) (most : base ≤ 36)
    (number : rational? x = some q) :
    ∃ z, IsIntegerText base z (inBase base x).toList ∧
      (z = wholePart q ↔ (wholePart q).natAbs < 2 ^ 128) := by
  have bound : exactBound = 2 ^ 128 := by decide
  have digits := digitsOf_digitsIn two most (min (wholePart q).natAbs (exactBound - 1))
  have canonical := (isCanonical_digitsIn two most (min (wholePart q).natAbs (exactBound - 1))).1
  simp only [inBase, integerPart?_of_rational? number]
  by_cases below : wholePart q < 0
  · rw [if_pos below, String.toList_ofList]
    exact ⟨_, .negative (by omega) digits canonical, by omega⟩
  · rw [if_neg below, String.toList_ofList]
    exact ⟨_, .natural digits canonical, by omega⟩

/-! ## Reading -/

/-- The number that at least one digit denotes. -/
def unsigned? (base : Nat) (cs : List Char) : Option Float :=
  if cs.isEmpty then none else (digitValues? base cs).map (foldDigits base)

theorem isSome_unsigned?_iff :
    (unsigned? base cs).isSome = true ↔ cs ≠ [] ∧ ∀ c ∈ cs, isDigit base c = true := by
  unfold unsigned?
  split
  next none => simp [List.isEmpty_iff.mp none]
  next some =>
    have some : cs ≠ [] := by simpa using some
    rw [Option.isSome_map, and_iff_right some]
    constructor
    · intro values
      obtain ⟨ds, values⟩ := Option.isSome_iff_exists.mp values
      exact isDigit_of_digitValues? values
    · exact isSome_mapM

theorem map_unsigned? (sign : Float) : (unsigned? base cs).map (sign * ·) =
    if cs.isEmpty then none
    else (digitValues? base cs).bind fun values => some (sign * foldDigits base values) := by
  unfold unsigned?
  split
  · rfl
  · rw [Option.map_map, Option.map_eq_bind]
    rfl

/-- At most one sign is taken from the front. -/
theorem ofBase?_eq (base : Nat) (cs : List Char) : ofBase? base cs = match cs with
    | '-' :: rest => (unsigned? base rest).map (-1 * ·)
    | '+' :: rest => (unsigned? base rest).map (1 * ·)
    | _ => (unsigned? base cs).map (1 * ·) := by
  cases cs with
  | nil => simp [ofBase?, unsigned?]
  | cons c rest =>
      by_cases minus : c = '-'
      · subst minus
        simp [ofBase?, map_unsigned?]
      · by_cases plus : c = '+'
        · subst plus
          simp [ofBase?, map_unsigned?]
        · simp [ofBase?, minus, plus, map_unsigned?]

/-- Text is read if it is digits with at most one sign. -/
theorem isSome_ofBase?_iff : (ofBase? base cs).isSome = true ↔ IsSigned base cs := by
  rw [ofBase?_eq]
  constructor
  · intro read
    split at read
    next rest =>
      obtain ⟨some, all⟩ := isSome_unsigned?_iff.mp (by simpa using read)
      exact .signed (.inl rfl) some all
    next rest =>
      obtain ⟨some, all⟩ := isSome_unsigned?_iff.mp (by simpa using read)
      exact .signed (.inr rfl) some all
    next =>
      obtain ⟨some, all⟩ := isSome_unsigned?_iff.mp (by simpa using read)
      exact .plain some all
  · intro text
    cases text with
    | plain some all =>
        split
        next rest => exact absurd rfl (ne_sign_of_isDigit (all _ List.mem_cons_self)).1
        next rest => exact absurd rfl (ne_sign_of_isDigit (all _ List.mem_cons_self)).2
        next => simpa using isSome_unsigned?_iff.mpr ⟨some, all⟩
    | signed sign some all =>
        rcases sign with rfl | rfl <;> simpa using isSome_unsigned?_iff.mpr ⟨some, all⟩

/-- Below two to the fifty-third, text of an integer is read as it. -/
theorem IsIntegerText.ofBase? (text : IsIntegerText base z cs) (positive : 0 < base)
    (small : base < 2 ^ 53) (lt : z.natAbs < 2 ^ 53) :
    ∃ y, ofBase? base cs = some y ∧ rational? y = some (z : ℚ) := by
  have unsigned {n : Nat} {cs : List Char} (digits : DigitsOf base cs n)
      (canonical : IsCanonical cs) (lt : n < 2 ^ 53) :
      unsigned? base cs = some (Float.ofNat n) := by
    obtain ⟨ds, values, folded⟩ := digits.foldDigits_eq positive small lt
    simp [unsigned?, canonical.ne_nil, values, folded]
  cases text with
  | @natural n cs digits canonical =>
      have read : Number.ofBase? base cs = (unsigned? base cs).map (1 * ·) := by
        rw [ofBase?_eq]
        split
        next => exact absurd rfl (ne_sign_of_isDigit (digits.isDigit _ List.mem_cons_self)).1
        next => exact absurd rfl (ne_sign_of_isDigit (digits.isDigit _ List.mem_cons_self)).2
        next => rfl
      have lt : n < 2 ^ 53 := by simpa using lt
      refine ⟨Float.ofNat n, ?_, by exact_mod_cast (denotes_ofNat lt).rational?⟩
      rw [read, unsigned digits canonical lt, Option.map_some,
        one_mul_of_denotes (denotes_ofNat lt)]
  | @negative n cs positive digits canonical =>
      have lt : n < 2 ^ 53 := by simpa using lt
      refine ⟨-1 * Float.ofNat n, ?_, ?_⟩
      · rw [ofBase?_eq]
        simp only [unsigned digits canonical lt, Option.map_some]
      · rw [rational?_neg_one_mul (denotes_ofNat lt)]
        push_cast
        rfl

/-! ## White space -/

/-- The digits of any base are decimal digits and letters. -/
theorem isBlank_of_isDigit (digit : isDigit base c = true) : Text.isBlank c = false := by
  obtain ⟨d, digit⟩ := Option.isSome_iff_exists.mp digit
  obtain ⟨value, -⟩ := digit?_eq_some_iff.mp digit
  have range : 48 ≤ c.toNat ∧ c.toNat ≤ 57 ∨ 97 ≤ c.toNat ∧ c.toNat ≤ 122 ∨
      65 ≤ c.toNat ∧ c.toNat ≤ 90 := by
    unfold digitValue? at value
    split at value
    next decimal => exact .inl decimal
    next =>
      split at value
      next lower => exact .inr (.inl lower)
      next =>
        split at value
        next upper => exact .inr (.inr upper)
        next => cases value
  simp only [Text.isBlank, Bool.or_eq_false_iff, Bool.and_eq_false_iff, decide_eq_false_iff_not,
    beq_eq_false_iff_ne]
  omega

/-- Text of an integer has at most one sign. -/
theorem IsIntegerText.isSigned (text : IsIntegerText base z cs) : IsSigned base cs := by
  cases text with
  | natural digits canonical => exact .plain canonical.ne_nil digits.isDigit
  | negative _ digits canonical => exact .signed (.inl rfl) canonical.ne_nil digits.isDigit

theorem IsSigned.ne_nil (text : IsSigned base cs) : cs ≠ [] := by
  cases text with
  | plain some _ => exact some
  | signed => exact List.cons_ne_nil _ _

theorem IsSigned.isBlank (text : IsSigned base cs) : ∀ c ∈ cs, Text.isBlank c = false := by
  cases text with
  | plain _ all => exact fun c hc => isBlank_of_isDigit (all c hc)
  | signed sign _ all =>
      refine List.forall_mem_cons.mpr ⟨?_, fun c hc => isBlank_of_isDigit (all c hc)⟩
      rcases sign with rfl | rfl <;> rfl

theorem dropWhile_isBlank {before core : List Char} (left : ∀ c ∈ before, Text.isBlank c = true)
    (some : core ≠ []) (inside : ∀ c ∈ core, Text.isBlank c = false) (after : List Char) :
    (before ++ (core ++ after)).dropWhile Text.isBlank = core ++ after := by
  obtain ⟨c, rest, rfl⟩ := List.exists_cons_of_ne_nil some
  have first := inside c List.mem_cons_self
  rw [List.dropWhile_append_of_pos left, List.cons_append,
    List.dropWhile_cons_of_neg (by simp [first])]

/-- Trimming leaves text without white space of what surrounds it. -/
theorem trimmed_of_isSurrounded {whole core : List Char} (around : IsSurrounded whole core)
    (some : core ≠ []) (inside : ∀ c ∈ core, Text.isBlank c = false) :
    Text.trimmed whole = core := by
  obtain ⟨before, after, rfl, left, right⟩ := around
  have back : (after.reverse ++ (core.reverse ++ [])).dropWhile Text.isBlank =
      core.reverse ++ [] :=
    dropWhile_isBlank (fun c hc => right c (List.mem_reverse.mp hc)) (by simpa using some)
      (fun c hc => inside c (List.mem_reverse.mp hc)) []
  rw [Text.trimmed, List.append_assoc, dropWhile_isBlank left some inside, List.reverse_append]
  rw [List.append_nil] at back
  rw [back, List.reverse_reverse]

/-- What is trimmed away is white space. -/
theorem isSurrounded_trimmed (cs : List Char) : IsSurrounded cs (Text.trimmed cs) := by
  refine ⟨cs.takeWhile Text.isBlank,
    ((cs.dropWhile Text.isBlank).reverse.takeWhile Text.isBlank).reverse, ?_, ?_, ?_⟩
  · rw [Text.trimmed, List.append_assoc, ← List.reverse_append, List.takeWhile_append_dropWhile,
      List.reverse_reverse, List.takeWhile_append_dropWhile]
  · exact fun c hc => List.mem_takeWhile_imp hc
  · exact fun c hc => List.mem_takeWhile_imp (List.mem_reverse.mp hc)

/-! ## The builtins -/

theorem strbase_call {v b : Value} (hb : IsBase b base) (h : Heap) :
    Builtin.strbase.call [v, b] h = .returned (.value (.str (inBase base v.toNumber))) := by
  have radix := hb.base_eq
  simp only [Builtin.call, Builtin.evaluate, List.getD_cons_zero, List.getD_cons_succ, radix]
  rfl

theorem numbase_call {v b : Value} (hb : IsBase b base) (h : Heap) :
    Builtin.numbase.call [v, b] h =
      match ofBase? base (Text.trimmed (h.text v).toList) with
      | some y => .returned (.value (.num y))
      | none => .failed (.misuse .parseInBase (toString base)) := by
  have radix := hb.base_eq
  simp only [Builtin.call, Builtin.evaluate, List.getD_cons_zero, List.getD_cons_succ, radix]
  cases read : ofBase? base (Text.trimmed (h.text v).toList) with
  | none =>
      simp only [bind, Except.bind, read]
      rfl
  | some y =>
      simp only [bind, Except.bind, read]
      rfl

/-- Without a base nothing is read. -/
theorem exists_isBase_of_call {v b : Value} {h : Heap} {p : Product}
    (call : Builtin.numbase.call [v, b] h = .returned p) : ∃ base, IsBase b base := by
  cases radix : Builtin.base b.toNumber with
  | ok base => exact ⟨base, isBase_of_base_eq radix⟩
  | error e =>
      simp only [Builtin.call, Builtin.evaluate, List.getD_cons_zero, List.getD_cons_succ,
        radix] at call
      cases call

/-- What is written is text of an integer, and that is the integer part of the number just if
it fits the exact width. -/
theorem strbase_digits (h : Heap) {v b : Value} {q : ℚ} {base : Nat}
    (number : rational? v.toNumber = some q) (hb : IsBase b base) :
    ∃ s z, Builtin.strbase.call [v, b] h = .returned (.value (.str s)) ∧
      IsIntegerText base z s.toList ∧ (z = wholePart q ↔ (wholePart q).natAbs < 2 ^ 128) := by
  obtain ⟨z, text, whole⟩ := exists_isIntegerText hb.two_le hb.le_most number
  exact ⟨_, z, strbase_call hb h, text, whole⟩

/-- A fraction below zero has no digits before the point, and no minus is written. -/
theorem strbase_digits_fraction :
    rational? (Value.num (-0.5)).toNumber = some (-1 / 2) ∧ IsBase (.num (Float.ofNat 16)) 16 ∧
      ∃ s z, Builtin.strbase.call [.num (-0.5), .num (Float.ofNat 16)] {} =
          .returned (.value (.str s)) ∧
        IsIntegerText 16 z s.toList ∧
          (z = wholePart (-1 / 2) ↔ (wholePart (-1 / 2)).natAbs < 2 ^ 128) := by
  have number : rational? (Value.num (-0.5)).toNumber = some (-1 / 2) := by
    have parts : Number.exact (-0.5) = .finite true (2 ^ 52) (-53) := rfl
    rw [Value.toNumber, rational?, parts]
    norm_num
  have hb : IsBase (.num (Float.ofNat 16)) 16 := isBase_ofNat (by decide) (by decide)
  exact ⟨number, hb, strbase_digits {} number hb⟩

/-- From two to the hundred and twenty-eighth on, all numbers have the same digits. -/
theorem strbase_digits_cutOff :
    rational? (Value.num (Float.ofNat (2 ^ 128))).toNumber = some (2 ^ 128) ∧
      IsBase (.num (Float.ofNat 16)) 16 ∧ ∃ s,
        Builtin.strbase.call [.num (Float.ofNat (2 ^ 128)), .num (Float.ofNat 16)] {} =
          .returned (.value (.str s)) ∧
        s.toList = List.replicate 32 'f' ∧ ¬IsIntegerText 16 (2 ^ 128) s.toList := by
  have hd : IsDouble (2 ^ 52) 76 := ⟨by decide, by decide, by decide, by decide, .inl le_rfl⟩
  have number : rational? (Float.ofNat (2 ^ 128)) = some (2 ^ 128) := by
    rw [ofNat_eq_ofParts hd (by decide) (by norm_num), rational?_ofParts]
    norm_num [isNegative]
  have hb : IsBase (.num (Float.ofNat 16)) 16 := isBase_ofNat (by decide) (by decide)
  have whole : wholePart (2 ^ 128) = 2 ^ 128 := by
    rw [show (2 ^ 128 : ℚ) = ((2 ^ 128 : Int) : ℚ) by norm_num, wholePart_intCast]
  have digits : (inBase 16 (Float.ofNat (2 ^ 128))).toList = List.replicate 32 'f' := by
    have cut : min (2 ^ 128 : Int).natAbs (exactBound - 1) = 2 ^ 128 - 1 := by decide
    have last : digitsIn 16 (2 ^ 128 - 1) = List.replicate 32 'f' := by cbv
    rw [inBase, integerPart?_of_rational? number, whole]
    simp only [cut, last, if_neg (show ¬(2 ^ 128 : Int) < 0 by decide), String.toList_ofList]
  refine ⟨number, hb, _, strbase_call hb {}, digits, fun text => ?_⟩
  obtain ⟨z, text', exact⟩ := exists_isIntegerText hb.two_le hb.le_most number
  obtain rfl := text.unique text'
  rw [whole] at exact
  exact absurd (exact.mp rfl) (by decide)

/-- Integers below two to the fifty-third are read back from the text that they are written
as. Any text is read just if it is digits of the base with at most one sign before them and
white space around. -/
theorem numbase_strbase (h : Heap) :
    (∀ v b n base, rational? v.toNumber = some ((n : Int) : ℚ) → n.natAbs < 2 ^ 53 →
      IsBase b base → ∃ s y, Builtin.strbase.call [v, b] h = .returned (.value (.str s)) ∧
        Builtin.numbase.call [.str s, b] h = .returned (.value (.num y)) ∧
          rational? y = some (n : ℚ)) ∧
      ∀ v b, (∃ y, Builtin.numbase.call [v, b] h = .returned (.value (.num y))) ↔
        ∃ base core, IsBase b base ∧ IsSurrounded (h.text v).toList core ∧ IsSigned base core := by
  constructor
  · intro v b n base number lt hb
    obtain ⟨z, text, whole⟩ := exists_isIntegerText hb.two_le hb.le_most number
    rw [wholePart_intCast] at whole
    obtain rfl : z = n := whole.mpr (by omega)
    obtain ⟨y, read, result⟩ := text.ofBase? (by have := hb.two_le; omega)
      (by have := hb.le_most; omega) lt
    refine ⟨_, y, strbase_call hb h, ?_, result⟩
    have plain : IsSurrounded (inBase base v.toNumber).toList (inBase base v.toNumber).toList :=
      ⟨[], [], by simp, nofun, nofun⟩
    rw [numbase_call hb, Heap.text, trimmed_of_isSurrounded plain text.isSigned.ne_nil
      text.isSigned.isBlank, read]
  · intro v b
    constructor
    · rintro ⟨y, call⟩
      obtain ⟨base, hb⟩ := exists_isBase_of_call call
      refine ⟨base, _, hb, isSurrounded_trimmed _, isSome_ofBase?_iff.mp ?_⟩
      rw [numbase_call hb] at call
      split at call
      next read => exact Option.isSome_iff_exists.mpr ⟨_, read⟩
      next => cases call
    · rintro ⟨base, core, hb, around, text⟩
      rw [numbase_call hb, trimmed_of_isSurrounded around text.ne_nil text.isBlank]
      obtain ⟨y, read⟩ := Option.isSome_iff_exists.mp (isSome_ofBase?_iff.mpr text)
      exact ⟨y, by rw [read]⟩

/-- A number is written with a minus and read back, and letters of either case are read
behind a sign that nothing stands before but white space. -/
theorem numbase_strbase_letters :
    rational? (Value.num (-1295)).toNumber = some ((-1295 : Int) : ℚ) ∧
      (-1295 : Int).natAbs < 2 ^ 53 ∧ IsBase (.num (Float.ofNat 36)) 36 ∧
      (∃ s y, Builtin.strbase.call [.num (-1295), .num (Float.ofNat 36)] {} =
          .returned (.value (.str s)) ∧
        Builtin.numbase.call [.str s, .num (Float.ofNat 36)] {} = .returned (.value (.num y)) ∧
          rational? y = some ((-1295 : Int) : ℚ)) ∧
      IsSurrounded " +zZ\n".toList ['+', 'z', 'Z'] ∧ IsSigned 36 ['+', 'z', 'Z'] ∧
      ∃ y, Builtin.numbase.call [.str " +zZ\n", .num (Float.ofNat 36)] {} =
        .returned (.value (.num y)) := by
  have number : rational? (Value.num (-1295)).toNumber = some ((-1295 : Int) : ℚ) := by
    have parts : Number.exact (-1295) = .finite true (1295 * 2 ^ 42) (-42) := rfl
    rw [Value.toNumber, rational?, parts]
    norm_num
  have hb : IsBase (.num (Float.ofNat 36)) 36 := isBase_ofNat (by decide) (by decide)
  have around : IsSurrounded " +zZ\n".toList ['+', 'z', 'Z'] :=
    ⟨[' '], ['\n'], by decide, List.forall_mem_singleton.mpr rfl, List.forall_mem_singleton.mpr rfl⟩
  have signed : IsSigned 36 ['+', 'z', 'Z'] :=
    .signed (.inr rfl) (by decide)
      (List.forall_mem_cons.mpr ⟨rfl, List.forall_mem_singleton.mpr rfl⟩)
  exact ⟨number, by decide, hb, (numbase_strbase {}).1 _ _ _ _ number (by decide) hb, around,
    signed, ((numbase_strbase {}).2 _ _).mpr ⟨36, _, hb, around, signed⟩⟩

end ScriptLang
