import ScriptLang.Proofs.Number.Positional

/-!
# The values of number literals

Every literal has a value: without its underscores it is a number in positional notation,
or digits of its radix.
-/

namespace ScriptLang

open Number

namespace Numeral

variable {radix : Nat} {c : Char} {cs whole : List Char}

theorem mem_decimalDigits_of_isDigit (digit : isDigit 10 c = true) : c ∈ decimalDigits := by
  refine mem_decimalDigits ?_
  rw [isDigit, digit?, Option.isSome_filter, Option.any_eq_true] at digit
  obtain ⟨d, value, below⟩ := digit
  rw [decide_eq_true_eq] at below
  unfold digitValue? at value
  split at value
  next decimal => simpa [isDecimalDigit] using decimal
  next =>
    split at value
    next =>
      obtain rfl := Option.some.inj value
      omega
    next =>
      split at value
      next =>
        obtain rfl := Option.some.inj value
        omega
      next => cases value

/-- Without the underscores, digits are left. -/
theorem Digits.filter (digits : Digits radix cs) : cs.filter (· != '_') ≠ [] ∧
    ∀ c ∈ cs.filter (· != '_'), isDigit radix c = true := by
  obtain ⟨first, rest, rfl, digit⟩ := digits.head
  constructor
  · simp [ne_underscore digit]
  · intro c hc
    obtain ⟨mem, mark⟩ := List.mem_filter.mp hc
    exact (digits.mem c mem).resolve_left (by simpa using mark)

theorem Digits.allDigits (digits : Digits 10 cs) : AllDigits (cs.filter (· != '_')) :=
  fun c hc => mem_decimalDigits_of_isDigit (digits.filter.2 c hc)

theorem DecimalPart.isPositional (part : DecimalPart whole) {fraction : List Char}
    (digits : AllDigits fraction) : IsPositional (whole.filter (· != '_')) fraction where
  ne_nil := part.digits_ten.filter.1
  digits c hc := (List.mem_append.mp hc).elim (part.digits_ten.allDigits c) (digits c)
  head long := by
    cases part with
    | zero => simp at long
    | @digits c cs nonzero digits =>
        have mark : c ≠ '_' := by
          obtain ⟨_, _, same, digit⟩ := digits.head
          cases same
          exact ne_underscore digit
        simpa [mark] using nonzero

theorem isSome_mapM {α β : Type} {f : α → Option β} {l : List α}
    (all : ∀ a ∈ l, (f a).isSome = true) : (l.mapM f).isSome = true := by
  induction l with
  | nil => rfl
  | cons a l ih =>
      obtain ⟨here, rest⟩ := List.forall_mem_cons.mp all
      obtain ⟨b, hb⟩ := Option.isSome_iff_exists.mp here
      obtain ⟨bs, hbs⟩ := Option.isSome_iff_exists.mp (ih rest)
      simp [List.mapM_cons, hb, hbs]

theorem isSome_readRadix? {cs : List Char} (some : cs ≠ [])
    (digits : ∀ c ∈ cs, isDigit radix c = true) : (readRadix? radix cs).isSome = true := by
  obtain ⟨values, hv⟩ := Option.isSome_iff_exists.mp
    (isSome_mapM (f := digit? radix) digits)
  simp [readRadix?, some, digitValues?, hv]

/-- Underscores do not count. -/
theorem literal?_filter (cs : List Char) : literal? (cs.filter (· != '_')) = literal? cs := by
  simp [literal?, List.filter_filter]

/-- Every literal has a value. -/
theorem Literal.isSome (literal : Literal cs) : (literal? cs).isSome = true := by
  cases literal with
  | @radix letter radix digits found separated =>
      have mark : letter ≠ '_' := by
        rintro rfl
        cases found
      obtain ⟨some, all⟩ := separated.filter
      have kept : ('0' :: letter :: digits).filter (· != '_') =
          '0' :: letter :: digits.filter (· != '_') := by
        simp [mark]
      rw [literal?, kept, radixPrefix?, found]
      exact isSome_readRadix? some all
  | decimal part =>
      have none : AllDigits [] := fun _ hc => absurd hc List.not_mem_nil
      have read := (part.isPositional none).literal?_positional
      change literal? (cs.filter (· != '_')) = _ at read
      rw [← literal?_filter, read]
      rfl
  | @fraction whole fraction part digits =>
      have read := (part.isPositional digits.allDigits).literal?_positional
      have some : (fraction.filter (· != '_')).isEmpty = false := by
        simpa using digits.filter.1
      have parts : whole.filter (· != '_') ++ '.' :: fraction.filter (· != '_') =
          (whole ++ '.' :: fraction).filter (· != '_') := by
        simp
      rw [positional, some, if_neg Bool.false_ne_true, parts] at read
      rw [← literal?_filter, read]
      rfl

end Numeral

end ScriptLang
