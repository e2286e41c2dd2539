import Mathlib.Data.List.TakeWhile
import ScriptLang.Token.Numeral

/-!
# The grammar of number literals

A literal is a zero or digits that begin with another one, perhaps with a fraction, or a
radix prefix with digits of its radix. An underscore stands only between two digits. These
are the texts that are taken for number literals.
-/

namespace ScriptLang

namespace Numeral

/-! ## The grammar -/

/-- Digits of a radix, with underscores only between two of them. -/
inductive Digits (radix : Nat) : List Char → Prop where
  | last {c : Char} : isDigit radix c = true → Digits radix [c]
  | digit {c : Char} {cs : List Char} : isDigit radix c = true → Digits radix cs →
      Digits radix (c :: cs)
  | separated {c : Char} {cs : List Char} : isDigit radix c = true → Digits radix cs →
      Digits radix (c :: '_' :: cs)

/-- The part of a decimal before the point: zero, or digits that begin with another one. -/
inductive DecimalPart : List Char → Prop where
  | zero : DecimalPart ['0']
  | digits {c : Char} {cs : List Char} : c ≠ '0' → Digits 10 (c :: cs) → DecimalPart (c :: cs)

/-- The number literals. -/
inductive Literal : List Char → Prop where
  | radix {letter : Char} {radix : Nat} {digits : List Char} :
      radixLetter? letter = some radix → Digits radix digits → Literal ('0' :: letter :: digits)
  | decimal {whole : List Char} : DecimalPart whole → Literal whole
  | fraction {whole fraction : List Char} : DecimalPart whole → Digits 10 fraction →
      Literal (whole ++ '.' :: fraction)

variable {radix : Nat} {c : Char} {cs whole fraction : List Char}

/-! ## Digits -/

/-- An underscore is a digit of no radix. -/
theorem ne_underscore (digit : isDigit radix c = true) : c ≠ '_' := by
  rintro rfl
  cases digit

/-- Digits begin with a digit. -/
theorem Digits.head (digits : Digits radix cs) :
    ∃ c rest, cs = c :: rest ∧ isDigit radix c = true := by
  cases digits with
  | last digit | digit digit _ | separated digit _ => exact ⟨_, _, rfl, digit⟩

theorem hasDoubleUnderscore_cons : hasDoubleUnderscore (c :: cs) = false ↔
    ¬(c = '_' ∧ cs.head? = some '_') ∧ hasDoubleUnderscore cs = false := by
  cases cs with
  | nil => simp [hasDoubleUnderscore]
  | cons d rest =>
      by_cases double : c = '_' ∧ d = '_'
      · obtain ⟨rfl, rfl⟩ := double
        simp [hasDoubleUnderscore]
      · rw [hasDoubleUnderscore]
        · simp [double]
        · rintro _ rfl h
          exact double ⟨rfl, (List.cons.inj h).1⟩

theorem wellSeparated_iff : wellSeparated radix cs = true ↔ cs ≠ [] ∧ cs.head? ≠ some '_' ∧
    cs.getLast? ≠ some '_' ∧ hasDoubleUnderscore cs = false ∧
      ∀ c ∈ cs, c = '_' ∨ isDigit radix c = true := by
  simp [wellSeparated, and_assoc]

theorem Digits.wellSeparated (digits : Digits radix cs) : wellSeparated radix cs = true := by
  induction digits with
  | last digit => simp [wellSeparated_iff, hasDoubleUnderscore, digit, ne_underscore digit]
  | digit digit rest ih =>
      obtain ⟨d, cs, rfl, -⟩ := rest.head
      obtain ⟨-, -, last, single, all⟩ := wellSeparated_iff.mp ih
      refine wellSeparated_iff.mpr ⟨nofun, ?_, ?_, ?_, ?_⟩
      · simpa using ne_underscore digit
      · rwa [List.getLast?_cons_cons]
      · exact hasDoubleUnderscore_cons.mpr ⟨fun h => ne_underscore digit h.1, single⟩
      · exact List.forall_mem_cons.mpr ⟨.inr digit, all⟩
  | separated digit rest ih =>
      obtain ⟨d, cs, rfl, -⟩ := rest.head
      obtain ⟨-, first, last, single, all⟩ := wellSeparated_iff.mp ih
      refine wellSeparated_iff.mpr ⟨nofun, ?_, ?_, ?_, ?_⟩
      · simpa using ne_underscore digit
      · rwa [List.getLast?_cons_cons, List.getLast?_cons_cons]
      · refine hasDoubleUnderscore_cons.mpr ⟨fun h => ne_underscore digit h.1, ?_⟩
        exact hasDoubleUnderscore_cons.mpr ⟨fun h => first h.2, single⟩
      · exact List.forall_mem_cons.mpr ⟨.inr digit, List.forall_mem_cons.mpr ⟨.inl rfl, all⟩⟩

theorem digits_of_wellSeparated : ∀ {cs : List Char}, wellSeparated radix cs = true →
    Digits radix cs
  | [], separated => absurd rfl (wellSeparated_iff.mp separated).1
  | [c], separated => by
      obtain ⟨-, first, -, -, all⟩ := wellSeparated_iff.mp separated
      exact .last ((all c List.mem_cons_self).resolve_left (by simpa using first))
  | c :: d :: rest, separated => by
      obtain ⟨-, first, last, single, all⟩ := wellSeparated_iff.mp separated
      obtain ⟨this, all⟩ := List.forall_mem_cons.mp all
      have digit : isDigit radix c = true := this.resolve_left (by simpa using first)
      have single := (hasDoubleUnderscore_cons.mp single).2
      rw [List.getLast?_cons_cons] at last
      by_cases mark : d = '_'
      · subst mark
        cases rest with
        | nil => exact absurd rfl last
        | cons e rest =>
            obtain ⟨other, single⟩ := hasDoubleUnderscore_cons.mp single
            rw [List.getLast?_cons_cons] at last
            refine .separated digit (digits_of_wellSeparated (wellSeparated_iff.mpr ?_))
            exact ⟨nofun, fun h => other ⟨rfl, h⟩, last, single, (List.forall_mem_cons.mp all).2⟩
      · refine .digit digit (digits_of_wellSeparated (wellSeparated_iff.mpr ?_))
        exact ⟨nofun, by simpa using mark, last, single, all⟩

/-- The digits of a number and the underscores between them. -/
theorem Digits.mem (digits : Digits radix cs) : ∀ c ∈ cs, c = '_' ∨ isDigit radix c = true := by
  obtain ⟨-, -, -, -, all⟩ := wellSeparated_iff.mp digits.wellSeparated
  exact all

/-! ## Literals -/

theorem DecimalPart.digits_ten (part : DecimalPart whole) : Digits 10 whole := by
  cases part with
  | zero => exact .last rfl
  | digits _ digits => exact digits

theorem decimalPart_iff : DecimalPart whole ↔
    (whole.length ≤ 1 ∨ whole.head? ≠ some '0') ∧ Digits 10 whole := by
  constructor
  · intro part
    refine ⟨?_, part.digits_ten⟩
    cases part with
    | zero => exact .inl (Nat.le_refl 1)
    | digits nonzero => exact .inr (by simpa using nonzero)
  · rintro ⟨start, digits⟩
    obtain ⟨c, rest, rfl, -⟩ := digits.head
    by_cases zero : c = '0'
    · subst zero
      cases rest with
      | nil => exact .zero
      | cons d rest => simp at start
    · exact .digits zero digits

theorem isDigit_of_radixLetter? (letter : radixLetter? c = some radix) : isDigit 10 c = false := by
  unfold radixLetter? at letter
  split at letter
  next hex => rcases hex with rfl | rfl <;> rfl
  next =>
    split at letter
    next octal => rcases octal with rfl | rfl <;> rfl
    next =>
      split at letter
      next binary => rcases binary with rfl | rfl <;> rfl
      next => cases letter

/-- Nothing that goes on with a decimal is the letter of a radix. -/
theorem radixPrefix?_eq_none (all : ∀ c ∈ cs, c = '.' ∨ c = '_' ∨ isDigit 10 c = true) :
    radixPrefix? cs = none := by
  unfold radixPrefix?
  split
  next c rest =>
    rw [Option.map_eq_none_iff, Option.eq_none_iff_forall_ne_some]
    intro radix letter
    rcases all c (by simp) with rfl | rfl | digit
    · cases letter
    · cases letter
    · rw [isDigit_of_radixLetter? letter] at digit
      cases digit
  next => rfl

theorem splitPoint_eq_none (plain : ∀ c ∈ cs, c ≠ '.') : splitPoint cs = (cs, none) := by
  have all : cs.dropWhile (· != '.') = [] :=
    List.dropWhile_eq_nil_iff.mpr fun c hc => by simpa using plain c hc
  rw [splitPoint, all]

theorem splitPoint_append (plain : ∀ c ∈ whole, c ≠ '.') (fraction : List Char) :
    splitPoint (whole ++ '.' :: fraction) = (whole, some fraction) := by
  have before : ∀ c ∈ whole, (c != '.') = true := fun c hc => by simpa using plain c hc
  simp [splitPoint, List.dropWhile_append_of_pos before, List.takeWhile_append_of_pos before]

/-- What is split is put together again. -/
theorem splitPoint_cases (cs : List Char) :
    splitPoint cs = (cs, none) ∨
      ∃ whole fraction, cs = whole ++ '.' :: fraction ∧ splitPoint cs = (whole, some fraction) := by
  have parts := List.takeWhile_append_dropWhile (p := (· != '.')) (l := cs)
  unfold splitPoint
  cases rest : cs.dropWhile (· != '.') with
  | nil => exact .inl rfl
  | cons c fraction =>
      have point := List.dropWhile_get_zero_not (p := (· != '.')) cs (by simp [rest])
      obtain rfl : c = '.' := by simpa [rest] using point
      rw [rest] at parts
      exact .inr ⟨_, fraction, parts.symm, rfl⟩

/-- The literals of the grammar are what is taken for one. -/
theorem isLiteral_iff : isLiteral cs = true ↔ Literal cs := by
  constructor
  · intro literal
    unfold isLiteral at literal
    split at literal
    next radix digits found =>
      unfold radixPrefix? at found
      split at found
      next letter rest =>
        obtain ⟨radix', letter', same⟩ := Option.map_eq_some_iff.mp found
        cases same
        exact .radix letter' (digits_of_wellSeparated literal)
      next => cases found
    next =>
      rcases splitPoint_cases cs with same | ⟨whole, fraction, rfl, same⟩
      · simp only [same, Bool.and_eq_true] at literal
        refine .decimal (decimalPart_iff.mpr ⟨?_, digits_of_wellSeparated literal.1.2⟩)
        simpa using literal.1.1
      · simp only [same, Bool.and_eq_true] at literal
        refine .fraction (decimalPart_iff.mpr ⟨?_, digits_of_wellSeparated literal.1.2⟩)
          (digits_of_wellSeparated literal.2)
        simpa using literal.1.1
  · have decimal {whole : List Char} (part : DecimalPart whole) :
        (!(decide (whole.length > 1) && whole.head? == some '0') && wellSeparated 10 whole) =
          true := by
      obtain ⟨start, digits⟩ := decimalPart_iff.mp part
      rw [digits.wellSeparated]
      simpa using start
    have plain : ∀ c, c = '_' ∨ isDigit 10 c = true → c ≠ '.' := by
      rintro _ (mark | digit) rfl
      · cases mark
      · cases digit
    intro literal
    unfold isLiteral
    cases literal with
    | @radix letter radix digits found separated =>
        rw [radixPrefix?, found]
        exact separated.wellSeparated
    | decimal part =>
        have mem := part.digits_ten.mem
        rw [radixPrefix?_eq_none fun c hc => .inr (mem c hc),
          splitPoint_eq_none fun c hc => plain c (mem c hc)]
        simp only [decimal part]
        rfl
    | @fraction whole fraction part digits =>
        have mem := part.digits_ten.mem
        have all : ∀ c ∈ whole ++ '.' :: fraction, c = '.' ∨ c = '_' ∨ isDigit 10 c = true := by
          intro c hc
          rcases List.mem_append.mp hc with hc | hc
          · exact .inr (mem c hc)
          · exact (List.mem_cons.mp hc).imp_right (digits.mem c)
        rw [radixPrefix?_eq_none all, splitPoint_append fun c hc => plain c (mem c hc)]
        simp only [decimal part]
        simpa using digits.wellSeparated

end Numeral

end ScriptLang
