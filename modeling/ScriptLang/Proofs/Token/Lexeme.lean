import Mathlib.Data.List.TakeWhile
import ScriptLang.Token.Lexer

/-!
# Lexemes by themselves

How far a word, a number or a string goes is settled by its own characters: what
follows a separator after it does not matter, and neither does what stood behind it
in the text that it was taken from. So the text of such a token, read by itself,
is that token again, and it stays that token wherever separators set it off.
-/

namespace ScriptLang

/-- A check of a few elements, one by one. -/
theorem forall_mem_of_all {α : Type} {P : α → Prop} [DecidablePred P] {l : List α}
    (checked : l.all (fun a => decide (P a)) = true) : ∀ a ∈ l, P a :=
  fun a ha => of_decide_eq_true (List.all_eq_true.mp checked a ha)

namespace Lexer

/-- Characters that go on with no word and no number: blanks, line feeds, brackets and
the marks between or behind the elements of a list. -/
def separators : List Char :=
  [' ', '\t', '\r', '\x0c', '\n', '(', ')', '[', ']', '\x7b', '\x7d', ',', ':', ';']

/-- A text that cannot go on with a word or a number before it: nothing, or a
separator first. -/
def SetOff (s : List Char) : Prop := ∀ c ∈ s.head?, c ∈ separators

theorem SetOff.cons {c : Char} (hc : c ∈ separators) (s : List Char) : SetOff (c :: s) := by
  rintro _ ⟨⟩
  exact hc

theorem SetOff.nil : SetOff [] := by
  rintro _ ⟨⟩

theorem takeWhile_of_setOff {p : Char → Bool} (hp : ∀ c ∈ separators, p c = false)
    {s : List Char} (hs : SetOff s) : s.takeWhile p = [] := by
  cases s with
  | nil => rfl
  | cons c t => simp [hp c (hs c rfl)]

theorem dropWhile_of_setOff {p : Char → Bool} (hp : ∀ c ∈ separators, p c = false)
    {s : List Char} (hs : SetOff s) : s.dropWhile p = s := by
  cases s with
  | nil => rfl
  | cons c t => simp [hp c (hs c rfl)]

theorem takeWhile_append_setOff {p : Char → Bool} (hp : ∀ c ∈ separators, p c = false)
    {s : List Char} (hs : SetOff s) (cs : List Char) : (cs ++ s).takeWhile p = cs.takeWhile p := by
  induction cs with
  | nil => exact takeWhile_of_setOff hp hs
  | cons c cs ih => rw [List.cons_append, List.takeWhile_cons, List.takeWhile_cons, ih]

theorem dropWhile_append_setOff {p : Char → Bool} (hp : ∀ c ∈ separators, p c = false)
    {s : List Char} (hs : SetOff s) (cs : List Char) :
    (cs ++ s).dropWhile p = cs.dropWhile p ++ s := by
  induction cs with
  | nil => exact dropWhile_of_setOff hp hs
  | cons c cs ih =>
      rw [List.cons_append, List.dropWhile_cons, List.dropWhile_cons, ih]
      split <;> rfl

theorem takeWhile_takeWhile_append {p : Char → Bool} (hp : ∀ c ∈ separators, p c = false)
    {s : List Char} (hs : SetOff s) (cs : List Char) :
    (cs.takeWhile p ++ s).takeWhile p = cs.takeWhile p := by
  rw [takeWhile_append_setOff hp hs, List.takeWhile_idem]

theorem take_length_takeWhile (p : Char → Bool) (cs : List Char) :
    cs.take (cs.takeWhile p).length = cs.takeWhile p :=
  (List.prefix_iff_eq_take.mp (List.takeWhile_prefix p)).symm

/-! ## Strings -/

theorem stringRun_cons {quote c : Char} (hc : c ≠ '\\') (cs : List Char) :
    stringRun quote (c :: cs) =
      if c == '\n' then (false, 0)
      else if c == quote then (true, 1)
      else ((stringRun quote cs).1, (stringRun quote cs).2 + 1) := by
  rw [stringRun]
  · intro h _
    exact hc h
  · intro _ _ h _
    exact hc h

/-- A character that takes no other with it is not a backslash. -/
theorem ne_backslash {c : Char} {cs : List Char} (last : c = '\\' → cs = [] → False)
    (escapes : ∀ d rest, c = '\\' → cs = d :: rest → False) : c ≠ '\\' := by
  rintro rfl
  cases cs with
  | nil => exact last rfl rfl
  | cons d rest => exact escapes d rest rfl rfl

/-- A closed string is closed by its own last character. -/
theorem stringRun_take_append {quote : Char} {cs : List Char} {n : Nat} (s : List Char)
    (h : stringRun quote cs = (true, n)) :
    n ≤ cs.length ∧ stringRun quote (cs.take n ++ s) = (true, n) := by
  fun_induction stringRun quote cs generalizing n with
  | case1 => simp at h
  | case2 => simp at h
  | case3 c cs closed m heq ih =>
      obtain ⟨rfl, rfl⟩ := by simpa using h
      obtain ⟨hle, hrun⟩ := ih heq
      refine ⟨by simpa using hle, ?_⟩
      simp [stringRun, hrun]
  | case4 => simp at h
  | case5 c cs h1 h2 hn hq =>
      have hc := ne_backslash h1 h2
      obtain rfl : 1 = n := by simpa using h
      refine ⟨by simp, ?_⟩
      rw [List.take_succ_cons, List.cons_append, stringRun_cons hc, if_neg hn, if_pos hq]
  | case6 c cs h1 h2 hn hq closed m heq ih =>
      have hc := ne_backslash h1 h2
      obtain ⟨rfl, rfl⟩ := by simpa using h
      obtain ⟨hle, hrun⟩ := ih heq
      refine ⟨by simpa using hle, ?_⟩
      rw [List.take_succ_cons, List.cons_append, stringRun_cons hc, if_neg hn, if_neg hq, hrun]

/-- Plain characters up to the closing quote make a string. -/
theorem stringRun_plain {quote : Char} {cs : List Char}
    (h : ∀ c ∈ cs, c ≠ '\\' ∧ c ≠ '\n' ∧ c ≠ quote) (hb : quote ≠ '\\') (hn : quote ≠ '\n') :
    stringRun quote (cs ++ [quote]) = (true, cs.length + 1) := by
  induction cs with
  | nil => simp [stringRun_cons hb, hn]
  | cons c cs ih =>
      obtain ⟨hc, hcn, hq⟩ := h c List.mem_cons_self
      have rest := ih fun d hd => h d (List.mem_cons_of_mem _ hd)
      rw [List.cons_append, stringRun_cons hc, rest]
      simp [hcn, hq]

/-! ## Numbers -/

/-- How far a number without a radix prefix goes after its first digit. -/
def decimalRun (rest : List Char) : Nat :=
  match rest.dropWhile inDigits with
  | '.' :: d :: fraction =>
    if isDecimal d then (rest.takeWhile inDigits).length + 2 + (fraction.takeWhile inDigits).length
    else (rest.takeWhile inDigits).length
  | _ => (rest.takeWhile inDigits).length

/-- The second character makes a number one with a radix prefix. -/
def hasRadix (first : Char) : List Char → Bool
  | c :: _ => first == '0' && (Numeral.radixLetter? c).isSome
  | [] => false

theorem numberRun_of_hasRadix {first c : Char} {digits : List Char}
    (h : hasRadix first (c :: digits) = true) :
    numberRun first (c :: digits) = (digits.takeWhile inRadixDigits).length + 1 := by
  rw [numberRun]
  exact if_pos h

theorem numberRun_eq_decimalRun {first : Char} {rest : List Char}
    (h : hasRadix first rest = false) : numberRun first rest = decimalRun rest := by
  cases rest with
  | nil => rfl
  | cons c digits =>
      rw [numberRun, if_neg (by simpa [hasRadix] using h)]
      rfl

theorem hasRadix_of_setOff {first : Char} {s : List Char} (hs : SetOff s) :
    hasRadix first s = false := by
  have plain : ∀ c ∈ separators, Numeral.radixLetter? c = none := forall_mem_of_all (by decide)
  cases s with
  | nil => rfl
  | cons c t => simp [hasRadix, plain c (hs c rfl)]

theorem decimalRun_append {whole s : List Char} (hw : ∀ c ∈ whole, inDigits c = true)
    (hs : SetOff s) : decimalRun (whole ++ s) = whole.length := by
  have ends : ∀ c ∈ separators, inDigits c = false := forall_mem_of_all (by decide)
  rw [decimalRun, List.dropWhile_append_of_pos hw, dropWhile_of_setOff ends hs,
    List.takeWhile_append_of_pos hw, takeWhile_of_setOff ends hs, List.append_nil]
  split
  next h =>
    -- a point would have to be a separator
    exact absurd (hs '.' rfl) (by decide)
  next => rfl

/-- A point before a digit goes on with a number. -/
theorem decimalRun_point {whole tail : List Char} {d : Char}
    (hw : ∀ c ∈ whole, inDigits c = true) (hd : isDecimal d = true) :
    decimalRun (whole ++ '.' :: d :: tail) = whole.length + 2 + (tail.takeWhile inDigits).length := by
  have point : inDigits '.' = false := by decide
  rw [decimalRun, List.dropWhile_append_of_pos hw, List.takeWhile_append_of_pos hw]
  simp [point, hd]

theorem decimalRun_point_append {whole fraction s : List Char} {d : Char}
    (hw : ∀ c ∈ whole, inDigits c = true) (hd : isDecimal d = true)
    (hf : ∀ c ∈ fraction, inDigits c = true) (hs : SetOff s) :
    decimalRun (whole ++ '.' :: d :: fraction ++ s) = whole.length + 2 + fraction.length := by
  have ends : ∀ c ∈ separators, inDigits c = false := forall_mem_of_all (by decide)
  rw [List.append_assoc, List.cons_append, List.cons_append, decimalRun_point hw hd,
    List.takeWhile_append_of_pos hf, takeWhile_of_setOff ends hs, List.append_nil]

/-- A decimal number ends after its whole part, or after its fraction. -/
theorem decimalRun_cases (rest : List Char) :
    decimalRun rest = (rest.takeWhile inDigits).length ∨
      ∃ whole d fraction, rest = whole ++ '.' :: d :: fraction ∧
        (∀ c ∈ whole, inDigits c = true) ∧ isDecimal d = true ∧
          decimalRun rest = whole.length + 2 + (fraction.takeWhile inDigits).length := by
  have whole := List.takeWhile_append_dropWhile (p := inDigits) (l := rest)
  have digits : ∀ c ∈ rest.takeWhile inDigits, inDigits c = true :=
    fun c hc => List.mem_takeWhile_imp hc
  unfold decimalRun
  split
  next d fraction h =>
    rw [h] at whole
    split
    next hd => exact .inr ⟨_, d, fraction, whole.symm, digits, hd, rfl⟩
    next => exact .inl rfl
  next => exact .inl rfl

/-- What such a number takes is its whole part, the point and its fraction. -/
theorem take_point (whole fraction : List Char) (d : Char) (p : Char → Bool) :
    (whole ++ '.' :: d :: fraction).take (whole.length + 2 + (fraction.takeWhile p).length) =
      whole ++ '.' :: d :: fraction.takeWhile p := by
  rw [Nat.add_assoc, List.take_length_add_append, Nat.add_comm 2, List.take_succ_cons,
    List.take_succ_cons, take_length_takeWhile]

/-- A decimal number is settled by its own characters. -/
theorem decimalRun_take_append {s : List Char} (hs : SetOff s) (rest : List Char) :
    decimalRun rest ≤ rest.length ∧
      decimalRun (rest.take (decimalRun rest) ++ s) = decimalRun rest := by
  have digits : ∀ cs : List Char, ∀ c ∈ cs.takeWhile inDigits, inDigits c = true :=
    fun cs c hc => List.mem_takeWhile_imp hc
  rcases decimalRun_cases rest with h | ⟨whole, d, fraction, rfl, hw, hd, h⟩
  · rw [h, take_length_takeWhile]
    exact ⟨(List.takeWhile_prefix _).length_le, decimalRun_append (digits rest) hs⟩
  · rw [h, take_point, decimalRun_point_append hw hd (digits fraction) hs]
    refine ⟨?_, rfl⟩
    have := (List.takeWhile_prefix inDigits (l := fraction)).length_le
    simp only [List.length_append, List.length_cons]
    omega

/-- A number is settled by its own characters. -/
theorem numberRun_take_append {s : List Char} (hs : SetOff s) (first : Char) (rest : List Char) :
    numberRun first rest ≤ rest.length ∧
      numberRun first (rest.take (numberRun first rest) ++ s) = numberRun first rest := by
  cases h : hasRadix first rest with
  | false =>
      have plain : hasRadix first (rest.take (decimalRun rest) ++ s) = false := by
        cases hn : decimalRun rest with
        | zero => simpa using hasRadix_of_setOff hs
        | succ n =>
            cases rest with
            | nil => simpa using hasRadix_of_setOff hs
            | cons c digits => simpa [hasRadix] using h
      rw [numberRun_eq_decimalRun h, numberRun_eq_decimalRun plain]
      exact decimalRun_take_append hs rest
  | true =>
      cases rest with
      | nil => simp [hasRadix] at h
      | cons c digits =>
          have ends : ∀ c ∈ separators, inRadixDigits c = false :=
            forall_mem_of_all (by decide)
          have again : hasRadix first (c :: (digits.takeWhile inRadixDigits ++ s)) = true := h
          rw [numberRun_of_hasRadix h, List.take_succ_cons, take_length_takeWhile,
            List.cons_append, numberRun_of_hasRadix again, takeWhile_takeWhile_append ends hs]
          exact ⟨by simpa using (List.takeWhile_prefix inRadixDigits).length_le, rfl⟩

/-! ## Lexemes -/

/-- Words, numbers and strings: the lexemes whose text the program keeps. -/
def keepsText : Token.Kind → Bool
  | .word | .number | .quote => true
  | .punct | .newline | .eof => false

theorem not_continuesWord_of_separators (dollar : Bool) :
    ∀ c ∈ separators, continuesWord dollar c = false :=
  forall_mem_of_all (by cases dollar <;> decide)

/-- How a lexeme begins and how far it goes, one case for each kind of beginning. -/
inductive IsLexeme (dollar : Bool) (c : Char) (rest : List Char) : Token.Kind → Nat → Prop where
  | newline : (c == '\n' || c == '#') = true →
      IsLexeme dollar c rest .newline (newlineRun (c == '#') rest)
  | quote {n : Nat} : (c == '\n' || c == '#') = false → (c == '"' || c == '\'') = true →
      stringRun c rest = (true, n) → IsLexeme dollar c rest .quote n
  | number {n : Nat} : (c == '\n' || c == '#') = false → (c == '"' || c == '\'') = false →
      isDecimal c = true → numberRun c rest = n → Numeral.isLiteral (c :: rest.take n) = true →
      IsLexeme dollar c rest .number n
  | word {n : Nat} : (c == '\n' || c == '#') = false → (c == '"' || c == '\'') = false →
      isDecimal c = false → startsWord dollar c = true →
      (rest.takeWhile (continuesWord dollar)).length = n → IsLexeme dollar c rest .word n
  | operator {op : String} : (c == '\n' || c == '#') = false → (c == '"' || c == '\'') = false →
      isDecimal c = false → startsWord dollar c = false → operator? (c :: rest) = some op →
      IsLexeme dollar c rest .punct (op.length - 1)
  | character : (c == '\n' || c == '#') = false → (c == '"' || c == '\'') = false →
      isDecimal c = false → startsWord dollar c = false → operator? (c :: rest) = none →
      isControl c = false → IsLexeme dollar c rest .punct 0

theorem lexeme_eq_item_iff {dollar : Bool} {c : Char} {rest : List Char} {kind : Token.Kind}
    {more : Nat} : lexeme dollar c rest = .item kind more ↔ IsLexeme dollar c rest kind more := by
  constructor
  · intro h
    unfold lexeme at h
    split at h
    next first =>
      obtain ⟨rfl, rfl⟩ := by simpa using h
      exact .newline first
    next first =>
      rw [Bool.not_eq_true] at first
      split at h
      next quote =>
        cases run : stringRun c rest with
        | mk closed n =>
            cases closed with
            | false => simp [run] at h
            | true =>
                obtain ⟨rfl, rfl⟩ := by simpa [run] using h
                exact .quote first quote run
      next quote =>
        rw [Bool.not_eq_true] at quote
        split at h
        next decimal =>
          dsimp only at h
          split at h
          next literal =>
            obtain ⟨rfl, rfl⟩ := by simpa using h
            exact .number first quote decimal rfl literal
          next => simp at h
        next decimal =>
          rw [Bool.not_eq_true] at decimal
          split at h
          next starts =>
            obtain ⟨rfl, rfl⟩ := by simpa using h
            exact .word first quote decimal starts rfl
          next starts =>
            rw [Bool.not_eq_true] at starts
            split at h
            next op found =>
              obtain ⟨rfl, rfl⟩ := by simpa using h
              exact .operator first quote decimal starts found
            next none =>
              split at h
              next => simp at h
              next control =>
                obtain ⟨rfl, rfl⟩ := by simpa using h
                exact .character first quote decimal starts none (by simpa using control)
  · intro h
    cases h <;> simp_all [lexeme]

/-- A lexeme whose text is kept begins no line and no comment. -/
theorem IsLexeme.first {dollar : Bool} {c : Char} {rest : List Char} {kind : Token.Kind}
    {more : Nat} (h : IsLexeme dollar c rest kind more) (hk : keepsText kind = true) :
    (c == '\n' || c == '#') = false := by
  cases h with
  | quote first | number first | word first => exact first
  | newline | operator | character => exact Bool.noConfusion hk

/-- A lexeme whose text is kept is settled by its own characters. -/
theorem lexeme_take_append {dollar : Bool} {c : Char} {rest s : List Char} {kind : Token.Kind}
    {more : Nat} (hs : SetOff s) (hk : keepsText kind = true)
    (h : lexeme dollar c rest = .item kind more) :
    more ≤ rest.length ∧ lexeme dollar c (rest.take more ++ s) = .item kind more := by
  rw [lexeme_eq_item_iff] at h ⊢
  cases h with
  | quote first quote run =>
      obtain ⟨le, run⟩ := stringRun_take_append s run
      exact ⟨le, .quote first quote run⟩
  | number first quote decimal run literal =>
      subst run
      obtain ⟨le, run⟩ := numberRun_take_append hs c rest
      refine ⟨le, .number first quote decimal run ?_⟩
      rwa [List.take_append_of_le_length (by simp [le]), List.take_take, Nat.min_self]
  | word first quote decimal starts run =>
      subst run
      refine ⟨(List.takeWhile_prefix _).length_le, .word first quote decimal starts ?_⟩
      rw [take_length_takeWhile,
        takeWhile_takeWhile_append (not_continuesWord_of_separators dollar) hs]
  | newline | operator | character => exact Bool.noConfusion hk

/-! ## Tokens -/

theorem isBlank_of_dropWhile {cs rest : List Char} {c : Char}
    (h : cs.dropWhile isBlank = c :: rest) : isBlank c = false := by
  have first := List.dropWhile_get_zero_not (p := isBlank) cs (by simp [h])
  simpa [h] using first

theorem tokensFrom_nil {dollar : Bool} {line : Nat} {cs : List Char}
    (h : cs.dropWhile isBlank = []) :
    tokensFrom dollar line cs = ⟨[Token.endOfText line], none⟩ := by
  rw [tokensFrom]
  split
  next => rfl
  next h' => simp [h] at h'

theorem tokensFrom_item {dollar : Bool} {line more : Nat} {cs rest : List Char} {c : Char}
    {kind : Token.Kind} (h : cs.dropWhile isBlank = c :: rest)
    (hl : lexeme dollar c rest = .item kind more) :
    tokensFrom dollar line cs =
      ⟨⟨kind, tokenText kind (c :: rest.take more), line⟩ ::
          (tokensFrom dollar (line + (c :: rest.take more).count '\n') (rest.drop more)).tokens,
        (tokensFrom dollar (line + (c :: rest.take more).count '\n') (rest.drop more)).fault⟩ := by
  rw [tokensFrom]
  split
  next h' => simp [h] at h'
  next c' rest' h' =>
    obtain ⟨rfl, rfl⟩ := by simpa [h] using h'
    simp only [hl]

theorem tokensFrom_fault {dollar : Bool} {line more : Nat} {cs rest : List Char} {c : Char}
    {cause : Cause} (h : cs.dropWhile isBlank = c :: rest)
    (hl : lexeme dollar c rest = .fault cause more) :
    tokensFrom dollar line cs =
      ⟨[], some ⟨line, faultText cause (c :: rest.take more), cause⟩⟩ := by
  rw [tokensFrom]
  split
  next h' => simp [h] at h'
  next c' rest' h' =>
    obtain ⟨rfl, rfl⟩ := by simpa [h] using h'
    simp only [hl]

/-- Blanks in front do not matter. -/
theorem tokensFrom_congr {dollar : Bool} {line : Nat} {cs cs' : List Char}
    (h : cs.dropWhile isBlank = cs'.dropWhile isBlank) :
    tokensFrom dollar line cs = tokensFrom dollar line cs' := by
  cases hd : cs'.dropWhile isBlank with
  | nil => rw [tokensFrom_nil hd, tokensFrom_nil (h.trans hd)]
  | cons c rest =>
      cases hl : lexeme dollar c rest with
      | item kind more => rw [tokensFrom_item hd hl, tokensFrom_item (h.trans hd) hl]
      | fault cause more => rw [tokensFrom_fault hd hl, tokensFrom_fault (h.trans hd) hl]

/-- No lexeme is the end of the text. -/
theorem lexeme_ne_eof {dollar : Bool} {c : Char} {rest : List Char} {kind : Token.Kind}
    {more : Nat} (h : lexeme dollar c rest = .item kind more) : kind ≠ .eof := by
  rintro rfl
  cases lexeme_eq_item_iff.mp h

/-- No lexeme is at fault for where it stands. -/
theorem lexeme_fault_ne_expected {dollar : Bool} {c : Char} {rest : List Char} {cause : Cause}
    {more : Nat} (h : lexeme dollar c rest = .fault cause more) (what : Expectation) :
    cause ≠ .expected what := by
  rintro rfl
  unfold lexeme at h
  split at h
  · cases h
  split at h
  · dsimp only at h
    split at h <;> cases h
  split at h
  · dsimp only at h
    split at h <;> cases h
  split at h
  · cases h
  split at h
  · cases h
  split at h <;> cases h

/-- Without a fault the last token is the end of the text. -/
theorem getLast?_tokensFrom (dollar : Bool) (line : Nat) (cs : List Char)
    (h : (tokensFrom dollar line cs).fault = none) :
    ∃ t ∈ (tokensFrom dollar line cs).tokens.getLast?, t.kind = .eof := by
  fun_induction tokensFrom dollar line cs with
  | case1 line => exact ⟨Token.endOfText line, rfl, rfl⟩
  | case2 => simp at h
  | case3 line cs c rest hd kind more hl slice after ih =>
      obtain ⟨t, ht, eof⟩ := ih h
      refine ⟨t, ?_, eof⟩
      rw [List.getLast?_cons, ht]
      rfl

/-- The end of the text is met without a fault. -/
theorem fault_eq_none_of_mem {dollar : Bool} {line : Nat} {cs : List Char} {t : Token}
    (h : t ∈ (tokensFrom dollar line cs).tokens) (eof : t.kind = .eof) :
    (tokensFrom dollar line cs).fault = none := by
  fun_induction tokensFrom dollar line cs with
  | case1 => rfl
  | case2 => simp at h
  | case3 line cs c rest hd kind more hl slice after ih =>
      rcases List.mem_cons.mp h with rfl | h
      · exact absurd eof (lexeme_ne_eof hl)
      · exact ih h

/-- A fault in the spelling of a text is not an unmet expectation. -/
theorem fault_ne_expected {dollar : Bool} {line : Nat} {cs : List Char} {d : Diagnostic}
    (h : (tokensFrom dollar line cs).fault = some d) (what : Expectation) :
    d.cause ≠ .expected what := by
  fun_induction tokensFrom dollar line cs with
  | case1 => simp at h
  | case2 line cs c rest hd cause more hl =>
      obtain rfl := Option.some.inj h
      exact lexeme_fault_ne_expected hl what
  | case3 line cs c rest hd kind more hl slice after ih => exact ih h

theorem tokenText_of_keepsText {kind : Token.Kind} (hk : keepsText kind = true)
    (slice : List Char) : tokenText kind slice = String.ofList slice := by
  cases kind <;> first | rfl | simp [keepsText] at hk

end Lexer

/-- The text, read by itself, is one token of a kind. -/
def LexesAs (dollar : Bool) (kind : Token.Kind) (text : String) : Prop :=
  ∃ line, lex dollar text = ⟨[⟨kind, text, 1⟩, Token.endOfText line], none⟩

open Lexer

/-- Such a text is one lexeme from its first character to its last. -/
theorem lexesAs_iff {dollar : Bool} {kind : Token.Kind} (hk : keepsText kind = true)
    {text : String} : LexesAs dollar kind text ↔
      ∃ c rest, text.toList = c :: rest ∧ isBlank c = false ∧
        lexeme dollar c rest = .item kind rest.length := by
  constructor
  · rintro ⟨line, h⟩
    rw [lex] at h
    have split := List.takeWhile_append_dropWhile (p := isBlank) (l := text.toList)
    cases hd : text.toList.dropWhile isBlank with
    | nil => simp [tokensFrom_nil hd, Token.endOfText] at h
    | cons c rest =>
        cases hl : lexeme dollar c rest with
        | fault cause more =>
            rw [tokensFrom_fault hd hl] at h
            simp at h
        | item kind' more =>
            rw [tokensFrom_item hd hl] at h
            obtain ⟨⟨⟨rfl, htext⟩, -⟩, -⟩ := by simpa using h
            rw [tokenText_of_keepsText hk] at htext
            have chars : text.toList = c :: rest.take more := by rw [← htext]; simp
            obtain ⟨hle, -⟩ := lexeme_take_append .nil hk hl
            rw [hd] at split
            have lengths := congrArg List.length (split.trans chars)
            simp only [List.length_append, List.length_cons, List.length_take] at lengths
            obtain rfl : more = rest.length := by omega
            exact ⟨c, rest, by simpa using chars, isBlank_of_dropWhile hd, hl⟩
  · rintro ⟨c, rest, ht, hb, hl⟩
    have start : text.toList.dropWhile isBlank = c :: rest := by simp [ht, hb]
    refine ⟨1 + (c :: rest).count '\n', ?_⟩
    rw [lex, tokensFrom_item start hl, List.drop_length, List.take_length,
      tokensFrom_nil rfl, tokenText_of_keepsText hk, ← ht]
    simp

/-- A word, number or string that is read from a text is one by itself. -/
theorem lexesAs_of_mem {dollar : Bool} {line : Nat} {cs : List Char} {t : Token}
    (h : t ∈ (tokensFrom dollar line cs).tokens) (hk : keepsText t.kind = true) :
    LexesAs dollar t.kind t.text := by
  fun_induction tokensFrom dollar line cs with
  | case1 =>
      obtain rfl : t = Token.endOfText _ := by simpa using h
      simp [Token.endOfText, keepsText] at hk
  | case2 => simp at h
  | case3 line cs c rest hd kind more hl slice after ih =>
      rcases List.mem_cons.mp h with rfl | h
      · obtain ⟨hle, alone⟩ := lexeme_take_append .nil hk hl
        refine (lexesAs_iff hk).mpr ⟨c, rest.take more, ?_, isBlank_of_dropWhile hd, ?_⟩
        · rw [tokenText_of_keepsText hk]
          simp [slice]
        · rw [List.length_take, Nat.min_eq_left hle]
          simpa using alone
      · exact ih h

/-! ## Words -/

/-- A word is made of letters and digits alone. -/
theorem continuesWord_of_lexesAs {dollar : Bool} {text : String}
    (h : LexesAs dollar .word text) : ∀ c ∈ text.toList, continuesWord dollar c = true := by
  obtain ⟨c, rest, ht, -, hl⟩ := (lexesAs_iff rfl).mp h
  obtain ⟨hc, run⟩ : startsWord dollar c = true ∧
      (rest.takeWhile (continuesWord dollar)).length = rest.length := by
    cases lexeme_eq_item_iff.mp hl with
    | word _ _ _ starts run => exact ⟨starts, run⟩
  have all : rest.takeWhile (continuesWord dollar) = rest :=
    (List.takeWhile_prefix _).eq_of_length run
  rw [ht]
  intro d hd
  rcases List.mem_cons.mp hd with rfl | hd
  · simp [continuesWord, hc]
  · rw [← all] at hd
    exact List.mem_takeWhile_imp hd

/-- A word in quotes is a string. -/
theorem lexesAs_quoted {dollar : Bool} {text : String} (h : LexesAs dollar .word text) :
    LexesAs dollar .quote ("\"" ++ text ++ "\"") := by
  have plain : ∀ c ∈ text.toList, c ≠ '\\' ∧ c ≠ '\n' ∧ c ≠ '"' := by
    intro c hc
    have hw := continuesWord_of_lexesAs h c hc
    refine ⟨?_, ?_, ?_⟩ <;> rintro rfl <;> cases dollar <;> simp [continuesWord] at hw <;>
      revert hw <;> decide
  refine (lexesAs_iff rfl).mpr ⟨'"', text.toList ++ ['"'], by simp, rfl, ?_⟩
  have run := stringRun_plain plain (by decide) (by decide)
  simp [lexeme, run]

theorem lexesAs_null (dollar : Bool) : LexesAs dollar .word "null" := by
  refine (lexesAs_iff rfl).mpr ⟨'n', ['u', 'l', 'l'], rfl, rfl, ?_⟩
  cases dollar <;> rfl

end ScriptLang
