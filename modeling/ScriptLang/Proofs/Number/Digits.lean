import ScriptLang.Proofs.Number.Literal
import ScriptLang.Proofs.Number.Sum

/-!
# Digits of a base

Digits denote a number by its base: each one behind the others adds itself to the base times
what stands before it. They are read exactly as long as the number fits the exact width, and
taken in doubles they give the number exactly below two to the fifty-third. A number is
written in lowercase digits without a superfluous zero, and these denote it.
-/

namespace ScriptLang

open Number

namespace Numeral

variable {base n n' d : Nat} {c : Char} {cs : List Char}

/-- The characters are digits of the base, and denote the number. -/
inductive DigitsOf (base : Nat) : List Char → Nat → Prop where
  | nil : DigitsOf base [] 0
  | concat {cs : List Char} {n d : Nat} {c : Char} : DigitsOf base cs n → digit? base c = some d →
      DigitsOf base (cs ++ [c]) (n * base + d)

theorem digit?_eq_some_iff : digit? base c = some d ↔ digitValue? c = some d ∧ d < base := by
  simp [digit?, Option.filter_eq_some_iff]

namespace DigitsOf

theorem isDigit (digits : DigitsOf base cs n) : ∀ c ∈ cs, isDigit base c = true := by
  induction digits with
  | nil => exact fun _ hc => absurd hc List.not_mem_nil
  | concat _ digit ih =>
      intro c hc
      rcases List.mem_append.mp hc with before | last
      · exact ih c before
      · rw [List.mem_singleton.mp last, Numeral.isDigit, digit]
        rfl

/-- Digits denote one number. -/
theorem unique (digits : DigitsOf base cs n) (digits' : DigitsOf base cs n') : n = n' := by
  induction digits generalizing n' with
  | nil =>
      generalize same : [] = cs at digits'
      cases digits' with
      | nil => rfl
      | concat => exact absurd same.symm (by simp)
  | @concat cs n d c _ digit ih =>
      generalize same : cs ++ [c] = whole at digits'
      cases digits' with
      | nil => exact absurd same (by simp)
      | concat before digit' =>
          obtain ⟨rfl, last⟩ := List.append_inj' same rfl
          obtain rfl : c = _ := List.singleton_inj.mp last
          rw [ih before, Option.some.inj (digit.symm.trans digit')]

end DigitsOf

/-! ## Reading -/

theorem ofRadixDigits?_concat (base : Nat) (ds : List Nat) (d : Nat) :
    ofRadixDigits? base (ds ++ [d]) = (ofRadixDigits? base ds).bind fun n =>
      if base * n + d < exactBound then some (base * n + d) else none := by
  simp [ofRadixDigits?, List.foldlM_append]

theorem foldDigits_concat (base : Nat) (ds : List Nat) (d : Nat) :
    foldDigits base (ds ++ [d]) = foldDigits base ds * Float.ofNat base + Float.ofNat d := by
  simp [foldDigits, List.foldl_append]

theorem digitValues?_concat {ds : List Nat} (before : digitValues? base cs = some ds)
    (digit : digit? base c = some d) : digitValues? base (cs ++ [c]) = some (ds ++ [d]) := by
  rw [digitValues?] at before
  simp [digitValues?, List.mapM_append, before, digit]

/-- Digits that have values denote the number that is folded from them. -/
theorem digitsOf_of_digitValues? {ds : List Nat} (values : digitValues? base cs = some ds) :
    DigitsOf base cs (ds.foldl (fun n d => n * base + d) 0) := by
  unfold digitValues? at values
  induction cs using List.reverseRecOn generalizing ds with
  | nil =>
      obtain rfl := Option.some.inj values
      exact .nil
  | append_singleton cs c ih =>
      rw [List.mapM_append] at values
      obtain ⟨before, found, last⟩ := Option.bind_eq_some_iff.mp values
      obtain ⟨after, tail, same⟩ := Option.bind_eq_some_iff.mp last
      obtain rfl := Option.some.inj same
      rw [List.mapM_cons] at tail
      obtain ⟨d, digit, single⟩ := Option.bind_eq_some_iff.mp tail
      obtain rfl : [d] = after := by simpa using single
      rw [List.foldl_append]
      exact (ih found).concat digit

theorem exists_digitsOf (all : ∀ c ∈ cs, isDigit base c = true) : ∃ n, DigitsOf base cs n := by
  obtain ⟨ds, values⟩ := Option.isSome_iff_exists.mp (isSome_mapM (f := digit? base) all)
  exact ⟨_, digitsOf_of_digitValues? values⟩

/-- Only digits have values. -/
theorem isDigit_of_digitValues? {ds : List Nat} (values : digitValues? base cs = some ds) :
    ∀ c ∈ cs, isDigit base c = true := by
  unfold digitValues? at values
  induction cs generalizing ds with
  | nil => exact fun _ hc => absurd hc List.not_mem_nil
  | cons c cs ih =>
      rw [List.mapM_cons] at values
      obtain ⟨d, digit, more⟩ := Option.bind_eq_some_iff.mp values
      obtain ⟨rest, others, -⟩ := Option.bind_eq_some_iff.mp more
      refine List.forall_mem_cons.mpr ⟨?_, ih others⟩
      rw [isDigit, digit]
      rfl

/-- Digits have values. These denote the number exactly if it fits, and what holds of the
doubles that the values are folded to is proved digit by digit. -/
theorem DigitsOf.read {P : Nat → Float → Prop} (digits : DigitsOf base cs n)
    (positive : 0 < base) (start : P 0 0)
    (step : ∀ n x d, d < base → P n x → P (n * base + d) (x * Float.ofNat base + Float.ofNat d)) :
    ∃ ds, digitValues? base cs = some ds ∧
      ofRadixDigits? base ds = (if n < exactBound then some n else none) ∧
      P n (foldDigits base ds) := by
  induction digits with
  | nil => exact ⟨[], rfl, rfl, start⟩
  | @concat cs n d c _ digit ih =>
      obtain ⟨ds, values, exact, folded⟩ := ih
      refine ⟨ds ++ [d], digitValues?_concat values digit, ?_, ?_⟩
      · have le : n ≤ n * base := Nat.le_mul_of_pos_right n positive
        rw [ofRadixDigits?_concat, exact]
        by_cases fits : n < exactBound
        · rw [if_pos fits, Option.bind_some, Nat.mul_comm base n]
        · rw [if_neg fits, if_neg (by omega), Option.bind_none]
      · rw [foldDigits_concat]
        exact step n _ d (digit?_eq_some_iff.mp digit).2 folded

/-- Below two to the fifty-third, folding in doubles gives the number. -/
theorem DigitsOf.foldDigits_eq (digits : DigitsOf base cs n) (positive : 0 < base)
    (small : base < 2 ^ 53) (lt : n < 2 ^ 53) :
    ∃ ds, digitValues? base cs = some ds ∧ foldDigits base ds = Float.ofNat n := by
  obtain ⟨ds, values, -, folded⟩ := digits.read (P := fun n x => n < 2 ^ 53 → x = Float.ofNat n)
    positive (fun _ => rfl) fun n x d _ ih lt => by
      have le : n ≤ n * base := Nat.le_mul_of_pos_right n positive
      rw [ih (by omega), ofNat_mul_add positive small lt]
  exact ⟨ds, values, folded lt⟩

/-! ## Writing -/

/-- The digits are in lowercase, and a zero comes first on its own only. -/
structure IsCanonical (cs : List Char) : Prop where
  ne_nil : cs ≠ []
  lower : ∀ c ∈ cs, c.isUpper = false
  head : cs.head? = some '0' → cs = ['0']

theorem digitChar_spec : ∀ d : Fin 36, digitValue? (digitChar d) = some d.val ∧
    (digitChar d).isUpper = false ∧ (digitChar d = '0' → d = 0) := by decide

theorem digit?_digitChar (lt : d < base) (most : base ≤ 36) : digit? base (digitChar d) = some d :=
  digit?_eq_some_iff.mpr ⟨(digitChar_spec ⟨d, by omega⟩).1, lt⟩

/-- The digits that are written denote the number. -/
theorem digitsOf_digitsIn (two : 2 ≤ base) (most : base ≤ 36) (n : Nat) :
    DigitsOf base (digitsIn base n) n := by
  fun_induction digitsIn base n with
  | case1 n last =>
      have digit := digit?_digitChar (last.resolve_left (by omega)) most
      simpa using DigitsOf.nil.concat digit
  | case2 n more ih =>
      have small : n % base < base := Nat.mod_lt n (by omega)
      have digit := digit?_digitChar small most
      have whole : n / base * base + n % base = n := Nat.div_add_mod' n base
      simpa only [whole] using ih.concat digit

theorem isCanonical_digitsIn (two : 2 ≤ base) (most : base ≤ 36) (n : Nat) :
    IsCanonical (digitsIn base n) ∧ ((digitsIn base n).head? = some '0' → n = 0) := by
  fun_induction digitsIn base n with
  | case1 n last =>
      obtain ⟨-, lower, zero⟩ := digitChar_spec ⟨n, by omega⟩
      have first : digitChar n = '0' → n = 0 := fun h => congrArg Fin.val (zero h)
      refine ⟨⟨by simp, by simpa using lower, fun h => ?_⟩, fun h => first (by simpa using h)⟩
      simpa using h
  | case2 n more ih =>
      obtain ⟨⟨some, lower, -⟩, first⟩ := ih
      have small : n % base < base := Nat.mod_lt n (by omega)
      obtain ⟨-, lower', -⟩ := digitChar_spec ⟨n % base, by omega⟩
      have above : n / base ≠ 0 := (Nat.div_pos (by omega) (by omega)).ne'
      have head : (digitsIn base (n / base) ++ [digitChar (n % base)]).head? ≠ .some '0' := by
        rw [List.head?_append_of_ne_nil _ some]
        exact fun h => above (first h)
      refine ⟨⟨by simp, ?_, fun h => absurd h head⟩, fun h => absurd h head⟩
      intro c hc
      rcases List.mem_append.mp hc with before | last
      · exact lower c before
      · rw [List.mem_singleton.mp last]
        exact lower'

end Numeral

end ScriptLang
