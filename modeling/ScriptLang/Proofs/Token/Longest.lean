import ScriptLang.Proofs.Number.Literal
import ScriptLang.Proofs.Token.Coverage

/-!
# Tokens as long as they can be

Where a token begins, as much of the text belongs to it as its kind allows: a word goes on
while word characters do, a punctuation mark is the longest operator that stands there, and
a number is the longest text in the shape of a number with a radix prefix or else in the
shape of a decimal. The shapes are wider than the grammar of literals, so that a number is
cut off by no mistake in it: it is one token if it is a literal, and at fault as a whole if
it is not.
-/

namespace ScriptLang

namespace Lexer

open Numeral

/-- The longest beginning of the text that has a property. -/
structure LongestPrefix (P : List Char → Prop) (text slice : List Char) : Prop where
  begins : slice <+: text
  holds : P slice
  longest : ∀ other, other <+: text → P other → other.length ≤ slice.length

/-- No beginning of the text has a property. -/
def NoPrefix (P : List Char → Prop) (text : List Char) : Prop := ∀ other, other <+: text → ¬P other

/-! ## Shapes -/

/-- A radix prefix with letters, digits and underscores. -/
def RadixShape (cs : List Char) : Prop :=
  ∃ letter digits, cs = '0' :: letter :: digits ∧ letter ∈ ['x', 'X', 'o', 'O', 'b', 'B'] ∧
    ∀ c ∈ digits, inRadixDigits c = true

/-- Digits and underscores behind a first digit. -/
def DigitsShape (cs : List Char) : Prop :=
  ∃ first more, cs = first :: more ∧ isDecimal first = true ∧ ∀ c ∈ more, inDigits c = true

/-- Digits and underscores, perhaps with a point and more of them. -/
def DecimalShape (cs : List Char) : Prop :=
  DigitsShape cs ∨
    ∃ whole fraction, cs = whole ++ '.' :: fraction ∧ DigitsShape whole ∧ DigitsShape fraction

/-- The longest number with a radix prefix, or else the longest decimal. -/
def LongestNumber (text slice : List Char) : Prop :=
  LongestPrefix RadixShape text slice ∨
    NoPrefix RadixShape text ∧ LongestPrefix DecimalShape text slice

/-- The characters of an operator. -/
def IsOperator (cs : List Char) : Prop := String.ofList cs ∈ operators

/-- The longest operator, or else one character. -/
def LongestPunct (text slice : List Char) : Prop :=
  LongestPrefix IsOperator text slice ∨
    NoPrefix IsOperator text ∧ LongestPrefix (fun cs => cs.length = 1) text slice

/-- Characters of words only. -/
def WordCharacters (dollar : Bool) (cs : List Char) : Prop := ∀ c ∈ cs, continuesWord dollar c = true

/-- The slice is as long as a token of the kind can be at the start of the text. -/
structure IsLongest (dollar : Bool) (kind : Token.Kind) (text slice : List Char) : Prop where
  begins : slice <+: text
  word : kind = .word → (∀ c ∈ text.head?, startsWord dollar c = true) ∧
    LongestPrefix (WordCharacters dollar) text slice
  punct : kind = .punct → LongestPunct text slice
  number : kind = .number → LongestNumber text slice ∧ Literal slice
  /-- A digit begins a number and nothing else. -/
  digit : (∃ c ∈ text.head?, isDecimal c = true) ↔ kind = .number

/-- What begins the text is at fault as a number if it begins with a digit: the longest
number there is no literal. -/
structure IsFault (cause : Cause) (text slice : List Char) : Prop where
  digit : (∃ c ∈ text.head?, isDecimal c = true) ↔ cause = .malformedNumber
  number : cause = .malformedNumber → LongestNumber text slice ∧ ¬Literal slice

variable {dollar : Bool} {c first : Char} {rest : List Char}

/-! ## Words -/

/-- A run of characters of one kind goes on as long as it can. -/
theorem longestPrefix_takeWhile (p : Char → Bool) (text : List Char) :
    LongestPrefix (fun cs => ∀ c ∈ cs, p c = true) text (text.takeWhile p) where
  begins := List.takeWhile_prefix p
  holds _ hc := List.mem_takeWhile_imp hc
  longest := by
    rintro other ⟨tail, rfl⟩ all
    rw [List.takeWhile_append_of_pos all, List.length_append]
    exact Nat.le_add_right _ _

/-! ## Numbers -/

theorem mem_radixLetters {letter : Char} :
    letter ∈ ['x', 'X', 'o', 'O', 'b', 'B'] ↔ (radixLetter? letter).isSome = true := by
  unfold radixLetter?
  grind

theorem hasRadix_of_radixShape {other : List Char} (shape : RadixShape other)
    (begins : other <+: first :: rest) : hasRadix first rest = true := by
  obtain ⟨letter, digits, rfl, mem, -⟩ := shape
  obtain ⟨tail, same⟩ := begins
  obtain ⟨rfl, rfl⟩ := List.cons.inj same
  simpa [hasRadix] using mem_radixLetters.mp mem

theorem longestPrefix_radix {letter : Char} {digits : List Char}
    (radix : hasRadix first (letter :: digits) = true) :
    LongestPrefix RadixShape (first :: letter :: digits)
      (first :: letter :: digits.takeWhile inRadixDigits) := by
  obtain ⟨zero, found⟩ : first = '0' ∧ (radixLetter? letter).isSome = true := by
    simpa [hasRadix] using radix
  have run := longestPrefix_takeWhile inRadixDigits digits
  refine ⟨?_, ⟨letter, _, by rw [zero], mem_radixLetters.mpr found, run.holds⟩, ?_⟩
  · exact (List.prefix_cons_inj _).mpr ((List.prefix_cons_inj _).mpr run.begins)
  · rintro _ begins ⟨letter', digits', rfl, -, all⟩
    obtain ⟨-, begins⟩ := List.cons_prefix_cons.mp begins
    obtain ⟨-, begins⟩ := List.cons_prefix_cons.mp begins
    simpa using run.longest digits' begins all

/-- A decimal is at least as long as its digits. -/
theorem length_takeWhile_le_decimalRun (rest : List Char) :
    (rest.takeWhile inDigits).length ≤ decimalRun rest := by
  unfold decimalRun
  split
  next =>
    split
    next => omega
    next => exact Nat.le_refl _
  next => exact Nat.le_refl _

theorem longestPrefix_decimal (digit : isDecimal first = true) (rest : List Char) :
    LongestPrefix DecimalShape (first :: rest) (first :: rest.take (decimalRun rest)) where
  begins := (List.prefix_cons_inj _).mpr (List.take_prefix _ _)
  holds := by
    have digits (cs : List Char) : ∀ c ∈ cs.takeWhile inDigits, inDigits c = true :=
      fun c hc => List.mem_takeWhile_imp hc
    rcases decimalRun_cases rest with run | ⟨whole, d, fraction, rfl, hw, hd, run⟩
    · rw [run, take_length_takeWhile]
      exact .inl ⟨first, _, rfl, digit, digits rest⟩
    · rw [run, take_point]
      exact .inr ⟨first :: whole, _, rfl, ⟨first, whole, rfl, digit, hw⟩,
        ⟨d, _, rfl, hd, digits fraction⟩⟩
  longest := by
    rintro other ⟨tail, same⟩ shape
    have le := (decimalRun_take_append .nil rest).1
    rw [List.length_cons, List.length_take, Nat.min_eq_left le]
    rcases shape with ⟨_, more, rfl, -, all⟩ |
      ⟨_, _, rfl, ⟨_, more, rfl, -, all⟩, d, fraction, rfl, hd, all'⟩
    · obtain rfl : more ++ tail = rest := (List.cons.inj same).2
      have run := length_takeWhile_le_decimalRun (more ++ tail)
      rw [List.takeWhile_append_of_pos all, List.length_append] at run
      rw [List.length_cons]
      omega
    · obtain rfl : more ++ '.' :: d :: (fraction ++ tail) = rest := by
        simpa using (List.cons.inj same).2
      rw [decimalRun_point all hd, List.takeWhile_append_of_pos all']
      simp only [List.length_append, List.length_cons]
      omega

/-- A number goes on as long as it can. -/
theorem longestNumber (digit : isDecimal first = true) (rest : List Char) :
    LongestNumber (first :: rest) (first :: rest.take (numberRun first rest)) := by
  cases radix : hasRadix first rest with
  | false =>
      refine .inr ⟨fun other begins shape => ?_, ?_⟩
      · rw [hasRadix_of_radixShape shape begins] at radix
        cases radix
      · rw [numberRun_eq_decimalRun radix]
        exact longestPrefix_decimal digit rest
  | true =>
      cases rest with
      | nil => cases radix
      | cons letter digits =>
          rw [numberRun_of_hasRadix radix, List.take_succ_cons, take_length_takeWhile]
          exact .inl (longestPrefix_radix radix)

theorem LongestPrefix.unique {P : List Char → Prop} {text slice slice' : List Char}
    (longest : LongestPrefix P text slice) (longest' : LongestPrefix P text slice') :
    slice = slice' := by
  have length := Nat.le_antisymm (longest'.longest slice longest.begins longest.holds)
    (longest.longest slice' longest'.begins longest'.holds)
  have same := List.prefix_of_prefix_length_le longest.begins longest'.begins length.le
  exact same.eq_of_length length

/-- There is one longest number. -/
theorem LongestNumber.unique {text slice slice' : List Char} (longest : LongestNumber text slice)
    (longest' : LongestNumber text slice') : slice = slice' := by
  rcases longest with radix | ⟨none, decimal⟩
  · rcases longest' with radix' | ⟨none, -⟩
    · exact radix.unique radix'
    · exact absurd radix.holds (none slice radix.begins)
  · rcases longest' with radix' | ⟨-, decimal'⟩
    · exact absurd radix'.holds (none slice' radix'.begins)
    · exact decimal.unique decimal'

/-! ## Operators -/

theorem prefix_of_isOperator {text other : List Char} (begins : other <+: text) :
    ((String.ofList other).toList.isPrefixOf text) = true := by
  rwa [String.toList_ofList, List.isPrefixOf_iff_prefix]

/-- The operator that is found first is the longest one. -/
theorem longestPrefix_operator {text : List Char} {op : String} (found : operator? text = some op) :
    LongestPrefix IsOperator text op.toList := by
  have ordered : operators.Pairwise fun a b => b.length ≤ a.length := by decide
  obtain ⟨begins, before, after, all, none⟩ := List.find?_eq_some_iff_append.mp found
  refine ⟨List.isPrefixOf_iff_prefix.mp begins, ?_, fun other begins' operator => ?_⟩
  · rw [IsOperator, String.ofList_toList, all]
    simp
  · rw [IsOperator, all] at operator
    rw [all] at ordered
    have starts := prefix_of_isOperator begins'
    rcases List.mem_append.mp operator with first | last
    · have := none _ first
      rw [starts] at this
      cases this
    · rcases List.mem_cons.mp last with same | last
      · rw [← same, String.toList_ofList]
      · have later := (List.pairwise_cons.mp (List.pairwise_append.mp ordered).2.1).1 _ last
        rwa [String.length_ofList, ← String.length_toList] at later

theorem noPrefix_operator {text : List Char} (none : operator? text = none) :
    NoPrefix IsOperator text := by
  intro other begins operator
  have := List.find?_eq_none.mp none _ operator
  rw [prefix_of_isOperator begins] at this
  exact this rfl

/-- The characters that an operator takes are its own. -/
theorem take_operator {op : String} (found : operator? (c :: rest) = some op) :
    c :: rest.take (op.length - 1) = op.toList := by
  have some : ∀ op ∈ operators, 0 < op.length := forall_mem_of_all (by decide)
  have mem : op ∈ operators := List.mem_of_find?_eq_some found
  have positive := some op mem
  rw [List.prefix_iff_eq_take.mp (longestPrefix_operator found).begins, String.length_toList,
    ← List.take_succ_cons, Nat.sub_add_cancel positive]

/-! ## Lexemes -/

/-- What begins a line, a comment or a string is no digit. -/
theorem not_isDecimal_of_line (line : (c == '\n' || c == '#') = true) : isDecimal c = false := by
  obtain rfl | rfl : c = '\n' ∨ c = '#' := by simpa using line
  · rfl
  · rfl

theorem not_isDecimal_of_quote (quote : (c == '"' || c == '\'') = true) : isDecimal c = false := by
  obtain rfl | rfl : c = '"' ∨ c = '\'' := by simpa using quote
  · rfl
  · rfl

/-- What begins with no digit is neither a number nor at fault as one. -/
theorem digit_iff_of_not_isDecimal {P : Prop} (decimal : isDecimal c = false) (not : ¬P) :
    (∃ d ∈ (c :: rest).head?, isDecimal d = true) ↔ P := by
  simp [decimal, not]

/-- Every token is as long as it can be. -/
theorem isLongest_of_lexeme {kind : Token.Kind} {more : Nat}
    (item : lexeme dollar c rest = .item kind more) :
    IsLongest dollar kind (c :: rest) (c :: rest.take more) := by
  have begins : c :: rest.take more <+: c :: rest :=
    (List.prefix_cons_inj c).mpr (List.take_prefix _ _)
  cases lexeme_eq_item_iff.mp item with
  | newline line =>
      have digit := not_isDecimal_of_line line
      exact ⟨begins, by simp, by simp, by simp, digit_iff_of_not_isDecimal digit (by simp)⟩
  | quote _ quote =>
      have digit := not_isDecimal_of_quote quote
      exact ⟨begins, by simp, by simp, by simp, digit_iff_of_not_isDecimal digit (by simp)⟩
  | number _ _ decimal run literal =>
      subst run
      refine ⟨begins, by simp, by simp, fun _ => ?_, by simpa using decimal⟩
      exact ⟨longestNumber decimal rest, isLiteral_iff.mp literal⟩
  | word _ _ decimal starts run =>
      have continues : continuesWord dollar c = true := by simp [continuesWord, starts]
      have longest := longestPrefix_takeWhile (continuesWord dollar) (c :: rest)
      rw [List.takeWhile_cons_of_pos continues, ← take_length_takeWhile, run] at longest
      exact ⟨begins, fun _ => ⟨by simpa using starts, longest⟩, by simp, by simp,
        digit_iff_of_not_isDecimal decimal (by simp)⟩
  | operator _ _ decimal _ found =>
      refine ⟨begins, by simp, fun _ => .inl ?_, by simp,
        digit_iff_of_not_isDecimal decimal (by simp)⟩
      rw [take_operator found]
      exact longestPrefix_operator found
  | character _ _ decimal _ none =>
      refine ⟨begins, by simp, fun _ => .inr ⟨noPrefix_operator none, begins, rfl, ?_⟩, by simp,
        digit_iff_of_not_isDecimal decimal (by simp)⟩
      rintro other - single
      exact single.le

/-- A number that is at fault is as long as it can be. -/
theorem isFault_of_lexeme {cause : Cause} {more : Nat}
    (fault : lexeme dollar c rest = .fault cause more) :
    IsFault cause (c :: rest) (c :: rest.take more) := by
  unfold lexeme at fault
  split at fault
  next => cases fault
  next =>
    split at fault
    next quote =>
      dsimp only at fault
      split at fault
      next => cases fault
      next =>
        cases fault
        have digit := not_isDecimal_of_quote quote
        exact ⟨digit_iff_of_not_isDecimal digit (by simp), by simp⟩
    next =>
      split at fault
      next decimal =>
        dsimp only at fault
        split at fault
        next => cases fault
        next literal =>
          cases fault
          refine ⟨by simpa using decimal, fun _ => ⟨longestNumber decimal rest, ?_⟩⟩
          rwa [← isLiteral_iff]
      next decimal =>
        rw [Bool.not_eq_true] at decimal
        split at fault
        next => cases fault
        next =>
          split at fault
          next => cases fault
          next =>
            split at fault
            next =>
              cases fault
              exact ⟨digit_iff_of_not_isDecimal decimal (by simp), by simp⟩
            next => cases fault

/-! ## The whole text -/

theorem CutsLexemes.whole {cs : List Char} {segments : List Segment}
    (cuts : CutsLexemes dollar cs segments rest) : cs = segments.flatMap Segment.chars ++ rest := by
  induction cuts with
  | nil => rfl
  | @cons gap tail rest c kind more line text segments _ _ ih =>
      rw [List.flatMap_cons, List.append_assoc, ← ih]
      simp [Segment.chars]

/-- In what is left of the text where a slice begins, the slice is as long as it can be. -/
theorem CutsLexemes.isLongest {cs : List Char} {segments : List Segment}
    (cuts : CutsLexemes dollar cs segments rest) {before after : List Segment} {s : Segment}
    (split : segments = before ++ s :: after) : IsLongest dollar s.token.kind
      (s.slice ++ after.flatMap Segment.chars ++ rest) s.slice := by
  induction cuts generalizing before with
  | nil => simp at split
  | @cons gap tail rest c kind more line text segments item cuts ih =>
      cases before with
      | nil =>
          obtain ⟨rfl, rfl⟩ := List.cons.inj split
          have left : c :: tail = c :: tail.take more ++ segments.flatMap Segment.chars ++ rest := by
            rw [List.append_assoc, ← cuts.whole, List.cons_append, List.take_append_drop]
          rw [← left]
          exact isLongest_of_lexeme item
      | cons first before => exact ih (List.cons.inj split).2

/-- What is left where a text is at fault begins, behind blanks, with what is at fault. -/
def EndsInFault (d : Diagnostic) (rest : List Char) : Prop :=
  ∃ gap text slice, rest = gap ++ text ∧ (∀ c ∈ gap, isBlank c = true) ∧ text ≠ [] ∧
    IsFault d.cause text slice ∧ (d.cause = .malformedNumber → d.near = String.ofList slice)

theorem Covers.endsInFault {line : Nat} {cs : List Char} {lexed : Lexed} {segments : List Segment}
    (covers : Covers dollar line cs lexed segments rest) {d : Diagnostic}
    (failed : lexed.fault = some d) : EndsInFault d rest := by
  obtain ⟨-, gap, c, tail, cause, more, hr, blank, fault, rfl⟩ := covers.failed d failed
  refine ⟨gap, c :: tail, _, hr, blank, List.cons_ne_nil _ _, isFault_of_lexeme fault, ?_⟩
  rintro rfl
  rfl

end Lexer

end ScriptLang
