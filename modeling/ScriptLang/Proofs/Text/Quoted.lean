import ScriptLang.Machine.Unquote
import ScriptLang.Proofs.Token.Lexeme
import ScriptLang.Text.Quoted

/-!
# Quoted text is read back

Text in quotes is one string literal, and what the literal stands for is the text
again, whatever characters it has.
-/

namespace ScriptLang

open Lexer Text Unquote

/-- A character between quotes stands for itself, or is escaped by a letter, or is
escaped by its code point. -/
theorem quotedChar_cases (c : Char) :
    (quotedChar c = [c] ∧ c ≠ '\\' ∧ c ≠ '"' ∧ c ≠ '\n') ∨
      (∃ l, quotedChar c = ['\\', l] ∧ l ≠ 'x' ∧ l ≠ 'u' ∧ letterEscape l = c) ∨
        c.toNat < 0x20 ∧ quotedChar c = ['\\', 'u', '0', '0'] ++ twoHexDigits c.toNat := by
  by_cases quote : c = '"'
  · subst quote
    exact .inr (.inl ⟨'"', by decide⟩)
  by_cases backslash : c = '\\'
  · subst backslash
    exact .inr (.inl ⟨'\\', by decide⟩)
  by_cases newline : c = '\n'
  · subst newline
    exact .inr (.inl ⟨'n', by decide⟩)
  by_cases carriageReturn : c = '\r'
  · subst carriageReturn
    exact .inr (.inl ⟨'r', by decide⟩)
  by_cases tab : c = '\t'
  · subst tab
    exact .inr (.inl ⟨'t', by decide⟩)
  by_cases backspace : c = '\x08'
  · subst backspace
    exact .inr (.inl ⟨'b', by decide⟩)
  by_cases formFeed : c = '\x0c'
  · subst formFeed
    exact .inr (.inl ⟨'f', by decide⟩)
  by_cases control : c.toNat < 0x20
  · exact .inr (.inr ⟨control, by simp_all [quotedChar]⟩)
  · exact .inl ⟨by simp_all [quotedChar], backslash, quote, newline⟩

/-! ## Reading the literal -/

/-- The escape by code point of a control character stands for it. -/
theorem resolve_codePoint {n : Nat} (h : n < 0x20) (rest : List Char) :
    resolve ('\\' :: 'u' :: '0' :: '0' :: (twoHexDigits n ++ rest)) =
      Char.ofNat n :: resolve rest := by
  have digits : ∀ n : Fin 0x20, hexChar ('0' :: '0' :: twoHexDigits n) = [Char.ofNat n] ∧
      (Nat.digitChar (n / 16)).utf8Size = 1 ∧ (Nat.digitChar (n % 16)).utf8Size = 1 := by decide
  obtain ⟨char, high, low⟩ := digits ⟨n, h⟩
  have taken : codePoint ('0' :: '0' :: (twoHexDigits n ++ rest)) =
      ('0' :: '0' :: twoHexDigits n, rest) := by
    have zero : '0'.utf8Size = 1 := by decide
    have none : splitBytes? 0 rest = some ([], rest) := by
      rw [splitBytes?.eq_def, if_pos rfl]
    simp [codePoint, splitBytes?, twoHexDigits, zero, high, low, none]
  rw [resolve, taken]
  exact congrArg (· ++ resolve rest) char

theorem resolve_quotedChar (c : Char) (rest : List Char) :
    resolve (quotedChar c ++ rest) = c :: resolve rest := by
  rcases quotedChar_cases c with ⟨plain, backslash, -, -⟩ | ⟨l, escaped, x, u, char⟩ | ⟨h, escaped⟩
  · rw [plain, List.singleton_append, resolve] <;> simp_all
  · rw [escaped, List.cons_append, List.singleton_append, resolve, char] <;> simp_all
  · rw [escaped, List.append_assoc]
    have read := resolve_codePoint h rest
    rwa [Char.ofNat_toNat] at read

/-- What quoted text stands for is the text. -/
theorem unquote_quoted (text : String) : unquote (quoted text) = text := by
  have resolved (cs : List Char) : resolve (cs.flatMap quotedChar) = cs := by
    induction cs with
    | nil => rw [List.flatMap_nil, resolve]
    | cons c cs ih => rw [List.flatMap_cons, resolve_quotedChar, ih]
  simp [unquote, quoted, resolved]

/-! ## One literal -/

/-- A string goes on behind an escaped character. -/
theorem stringRun_quotedChar (c : Char) (rest : List Char) :
    stringRun '"' (quotedChar c ++ rest) =
      ((stringRun '"' rest).1, (stringRun '"' rest).2 + (quotedChar c).length) := by
  have step {d : Char} (cs : List Char) (hb : d ≠ '\\') (hn : d ≠ '\n') (hq : d ≠ '"') :
      stringRun '"' (d :: cs) = ((stringRun '"' cs).1, (stringRun '"' cs).2 + 1) := by
    rw [stringRun_cons hb]
    simp [hn, hq]
  rcases quotedChar_cases c with ⟨plain, backslash, quote, newline⟩ | ⟨l, escaped, -⟩ | ⟨h, escaped⟩
  · rw [plain]
    exact step rest backslash newline quote
  · rw [escaped, List.cons_append, List.singleton_append, stringRun]
    rfl
  · have digits (n : Fin 0x20) : ∀ d ∈ twoHexDigits n, d ≠ '\\' ∧ d ≠ '\n' ∧ d ≠ '"' :=
      forall_mem_of_all (by revert n; decide)
    have high := digits ⟨c.toNat, h⟩ _ List.mem_cons_self
    have low := digits ⟨c.toNat, h⟩ _ (List.mem_cons_of_mem _ List.mem_cons_self)
    rw [escaped]
    simp only [twoHexDigits, List.cons_append, List.nil_append, stringRun]
    rw [step _ (by decide) (by decide) (by decide), step _ (by decide) (by decide) (by decide),
      step _ high.1 high.2.1 high.2.2, step _ low.1 low.2.1 low.2.2]
    rfl

/-- Quoted text is one string literal. -/
theorem lexesAs_quoted_text (dollar : Bool) (text : String) :
    LexesAs dollar .quote (quoted text) := by
  have run (cs : List Char) : stringRun '"' (cs.flatMap quotedChar ++ ['"']) =
      (true, (cs.flatMap quotedChar ++ ['"']).length) := by
    induction cs with
    | nil => rfl
    | cons c cs ih =>
        rw [List.flatMap_cons, List.append_assoc, stringRun_quotedChar, ih, Nat.add_comm,
          ← List.length_append]
  refine (lexesAs_iff rfl).mpr ⟨'"', text.toList.flatMap quotedChar ++ ['"'], ?_, rfl, ?_⟩
  · simp [quoted]
  · simp [lexeme, run]

end ScriptLang
