import Mathlib.Data.List.Basic
import ScriptLang.Machine.Unquote
import ScriptLang.Target.Emit
import ScriptLang.Token.Lexer

/-!
# The value of a string literal

A string literal is written to the target as it stands, and the target reads it by its own
grammar: it is made of parts, and its value is what the parts stand for, in code units of
sixteen bits. An interpreted program has `unquote` instead, which comes to the same value.

There are two exceptions. A backslash before the end of a line stands for nothing, but
`unquote` keeps the end of the line; and two escapes of surrogates stand for one character
of the target, while `unquote` leaves out each of them.
-/

namespace ScriptLang

namespace Target

open Unquote

/-! ## Strings of the target -/

/-- A code point in code units. From `0x10000` on it takes a pair of surrogates. -/
def unitsOf (n : Nat) : List Nat :=
  if n < 0x10000 then [n]
  else [0xd800 + (n - 0x10000) / 0x400, 0xdc00 + (n - 0x10000) % 0x400]

/-- Characters in code units. -/
def codeUnits (cs : List Char) : List Nat := cs.flatMap fun c => unitsOf c.toNat

/-- The number that hexadecimal digits denote. -/
def hexNumber (digits : List Char) : Nat :=
  digits.foldl (fun n d => 16 * n + (Numeral.digit? 16 d).getD 0) 0

/-- The ends of lines. The second and third one are a pair in this order. -/
def lineTerminators : List (List Char) :=
  [['\n'], ['\r'], ['\r', '\n'], ['\u2028'], ['\u2029']]

/-- What a string literal is made of between its quotes. -/
inductive StringPart where
  /-- A character that stands for itself. -/
  | plain (c : Char)
  /-- A backslash before a character. -/
  | escaped (c : Char)
  /-- A backslash before the digit zero. -/
  | zero
  /-- Two hexadecimal digits after an `x`. -/
  | byte (digits : List Char)
  /-- Four hexadecimal digits after a `u`. -/
  | unit (digits : List Char)
  /-- Hexadecimal digits in braces after a `u`. -/
  | codePoint (digits : List Char)
  /-- A backslash before the end of a line. -/
  | continuation (terminator : List Char)
  deriving DecidableEq

/-- A character after a backslash. -/
def escapedCharacter (c : Char) : Char :=
  match c with
  | 'b' => '\x08'
  | 't' => '\x09'
  | 'n' => '\x0a'
  | 'v' => '\x0b'
  | 'f' => '\x0c'
  | 'r' => '\x0d'
  | c => c

namespace StringPart

/-- The characters of the part. -/
def spelling : StringPart → List Char
  | plain c => [c]
  | escaped c => ['\\', c]
  | zero => ['\\', '0']
  | byte digits => '\\' :: 'x' :: digits
  | unit digits => '\\' :: 'u' :: digits
  | codePoint digits => '\\' :: 'u' :: '\x7b' :: (digits ++ ['\x7d'])
  | continuation terminator => '\\' :: terminator

/-- The part may stand in a literal with these quotes. -/
def Legal (quote : Char) : StringPart → Prop
  | plain c => c ≠ quote ∧ c ≠ '\\' ∧ c ≠ '\n' ∧ c ≠ '\r'
  | escaped c => Lexer.isDecimal c = false ∧ c ≠ 'x' ∧ c ≠ 'u' ∧
      ∀ terminator ∈ lineTerminators, c ∉ terminator
  | zero => True
  | byte digits => digits.length = 2 ∧ digits.all (Numeral.isDigit 16)
  | unit digits => digits.length = 4 ∧ digits.all (Numeral.isDigit 16)
  | codePoint digits => digits ≠ [] ∧ digits.all (Numeral.isDigit 16) ∧
      hexNumber digits ≤ 0x10ffff
  | continuation terminator => terminator ∈ lineTerminators

instance (quote : Char) : (part : StringPart) → Decidable (part.Legal quote)
  | plain c => inferInstanceAs (Decidable (c ≠ quote ∧ c ≠ '\\' ∧ c ≠ '\n' ∧ c ≠ '\r'))
  | escaped c => inferInstanceAs (Decidable (Lexer.isDecimal c = false ∧ c ≠ 'x' ∧ c ≠ 'u' ∧
      ∀ terminator ∈ lineTerminators, c ∉ terminator))
  | zero => inferInstanceAs (Decidable True)
  | byte digits =>
    inferInstanceAs (Decidable (digits.length = 2 ∧ digits.all (Numeral.isDigit 16)))
  | unit digits =>
    inferInstanceAs (Decidable (digits.length = 4 ∧ digits.all (Numeral.isDigit 16)))
  | codePoint digits => inferInstanceAs (Decidable (digits ≠ [] ∧
      digits.all (Numeral.isDigit 16) ∧ hexNumber digits ≤ 0x10ffff))
  | continuation terminator => inferInstanceAs (Decidable (terminator ∈ lineTerminators))

/-- The code units that the part stands for. -/
def value : StringPart → List Nat
  | plain c => unitsOf c.toNat
  | escaped c => unitsOf (escapedCharacter c).toNat
  | zero => [0]
  | byte digits | unit digits => [hexNumber digits]
  | codePoint digits => unitsOf (hexNumber digits)
  | continuation _ => []

/-- The part neither escapes a surrogate nor the end of a line. -/
def IsCommon : StringPart → Prop
  | unit digits | codePoint digits => (hexNumber digits).isValidChar
  | continuation _ => False
  | _ => True

instance : (part : StringPart) → Decidable part.IsCommon
  | unit digits | codePoint digits => inferInstanceAs (Decidable (hexNumber digits).isValidChar)
  | continuation _ => inferInstanceAs (Decidable False)
  | plain _ | escaped _ | zero | byte _ => inferInstanceAs (Decidable True)

end StringPart

/-- The parts may follow each other. No digit follows an escaped zero. -/
def LegalParts (quote : Char) : List StringPart → Prop
  | [] => True
  | part :: rest => part.Legal quote ∧ LegalParts quote rest ∧
      (part = .zero → (rest.flatMap StringPart.spelling).head?.any Lexer.isDecimal = false)

instance decidableLegalParts (quote : Char) :
    (parts : List StringPart) → Decidable (LegalParts quote parts)
  | [] => inferInstanceAs (Decidable True)
  | part :: rest =>
    have := decidableLegalParts quote rest
    inferInstanceAs (Decidable (part.Legal quote ∧ LegalParts quote rest ∧ (part = .zero → _ = _)))

/-- The text is a string literal of the target that is made of these parts. -/
structure IsStringLiteral (text : String) (quote : Char) (parts : List StringPart) : Prop where
  mark : quote = '"' ∨ quote = '\''
  text : text.toList = quote :: (parts.flatMap StringPart.spelling ++ [quote])
  legal : LegalParts quote parts

/-! ## Hexadecimal digits -/

section Digits

variable {digits : List Char}

/-- A hexadecimal digit is one byte, and none of the other marks of an escape. -/
theorem of_isDigit {d : Char} (h : Numeral.isDigit 16 d = true) :
    d.utf8Size = 1 ∧ d ≠ '+' ∧ d ≠ '\x7b' ∧ d ≠ '\x7d' := by
  have ascii : d.toNat < 128 := by
    have below {last : Char} (le : d ≤ last) (small : last.toNat < 128) : d.toNat < 128 :=
      Nat.lt_of_le_of_lt (UInt32.le_iff_toNat_le.mp (Char.le_def.mp le)) small
    rw [Numeral.isDigit, Numeral.digit?, Numeral.digitValue?] at h
    split at h
    next range => exact below range.2 (by decide)
    split at h
    next range => exact below range.2 (by decide)
    split at h
    next range => exact below range.2 (by decide)
    next => cases h
  have all : ∀ n : Fin 128, Numeral.isDigit 16 (Char.ofNat n) = true →
      (Char.ofNat n).utf8Size = 1 ∧ Char.ofNat n ≠ '+' ∧ Char.ofNat n ≠ '\x7b' ∧
        Char.ofNat n ≠ '\x7d' := by
    decide
  have known := all ⟨d.toNat, ascii⟩
  rw [Char.ofNat_toNat] at known
  exact known h

theorem mapM_digit? (h : ∀ d ∈ digits, Numeral.isDigit 16 d = true) :
    digits.mapM (Numeral.digit? 16) = some (digits.map fun d => (Numeral.digit? 16 d).getD 0) := by
  induction digits with
  | nil => rfl
  | cons d digits ih =>
      obtain ⟨first, later⟩ := List.forall_mem_cons.mp h
      obtain ⟨v, hv⟩ := Option.isSome_iff_exists.mp first
      rw [List.mapM_cons, ih later, hv]
      simp [hv]

theorem digit?_lt (d : Char) : (Numeral.digit? 16 d).getD 0 < 16 := by
  cases h : Numeral.digit? 16 d with
  | none => decide
  | some v =>
      rw [Numeral.digit?, Option.filter_eq_some_iff] at h
      exact of_decide_eq_true h.2

/-- So many digits denote a number below this power of the base. -/
theorem hexNumber_lt (digits : List Char) : hexNumber digits < Nat.pow 16 digits.length := by
  have run (digits : List Char) (n : Nat) :
      digits.foldl (fun n d => 16 * n + (Numeral.digit? 16 d).getD 0) n <
        (n + 1) * Nat.pow 16 digits.length := by
    induction digits generalizing n with
    | nil => exact Nat.lt_of_lt_of_le (Nat.lt_succ_self n) (Nat.le_mul_of_pos_right _ (by decide))
    | cons d digits ih =>
        have digit := digit?_lt d
        have further : 16 * n + (Numeral.digit? 16 d).getD 0 + 1 ≤ (n + 1) * 16 := by omega
        have power : Nat.pow 16 (digits.length + 1) = 16 * Nat.pow 16 digits.length :=
          Nat.mul_comm _ _
        rw [List.length_cons, power, ← Nat.mul_assoc]
        exact Nat.lt_of_lt_of_le (ih _) (Nat.mul_le_mul_right _ further)
  have all := run digits 0
  rwa [Nat.zero_add, Nat.one_mul] at all

theorem hexValue?_digits (nonempty : digits ≠ []) (h : ∀ d ∈ digits, Numeral.isDigit 16 d = true)
    (small : hexNumber digits ≤ 0x10ffff) : hexValue? digits = some (hexNumber digits) := by
  cases digits with
  | nil => exact absurd rfl nonempty
  | cons d rest =>
      have plain : d ≠ '+' := (of_isDigit (h d List.mem_cons_self)).2.1
      have bound : hexNumber (d :: rest) < Nat.pow 2 32 := Nat.lt_of_le_of_lt small (by decide)
      rw [hexNumber] at bound ⊢
      have others : ∀ tail, d :: rest = '+' :: tail → False := by
        intro tail sign
        exact plain (List.cons.inj sign).1
      rw [hexValue?, if_neg (by simp), mapM_digit? h, Option.bind_some, List.foldl_map,
        if_pos bound]
      exact others

/-- An escape by number stands for the character that the digits denote. -/
theorem codeUnits_hexChar (nonempty : digits ≠ []) (h : ∀ d ∈ digits, Numeral.isDigit 16 d = true)
    (valid : (hexNumber digits).isValidChar) :
    codeUnits (hexChar digits) = unitsOf (hexNumber digits) := by
  have small : hexNumber digits ≤ 0x10ffff := by
    rcases valid with lt | ⟨-, lt⟩ <;> omega
  rw [hexChar, hexValue?_digits nonempty h small]
  simp only [if_pos valid]
  have char : (Char.ofNat (hexNumber digits)).toNat = hexNumber digits := by
    rw [Char.ofNat, dif_pos valid]
    rfl
  rw [codeUnits, List.flatMap_singleton, char]

theorem splitBytes?_digits (h : ∀ d ∈ digits, Numeral.isDigit 16 d = true) (rest : List Char) :
    splitBytes? digits.length (digits ++ rest) = some (digits, rest) := by
  induction digits with
  | nil => rw [List.length_nil, splitBytes?.eq_def, if_pos rfl, List.nil_append]
  | cons d digits ih =>
      obtain ⟨first, later⟩ := List.forall_mem_cons.mp h
      have size : d.utf8Size = 1 := (of_isDigit first).1
      rw [List.cons_append, List.length_cons, splitBytes?, if_neg (Nat.succ_ne_zero _), size,
        if_pos (Nat.le_add_left 1 _), Nat.add_sub_cancel, ih later]
      rfl

/-- Four digits without a brace are an escape. -/
theorem codePoint_digits (length : digits.length = 4)
    (h : ∀ d ∈ digits, Numeral.isDigit 16 d = true) (rest : List Char) :
    Unquote.codePoint (digits ++ rest) = (digits, rest) := by
  have split := splitBytes?_digits h rest
  rw [length] at split
  cases digits with
  | nil => cases length
  | cons d digits =>
      have brace : d ≠ '\x7b' := (of_isDigit (h d List.mem_cons_self)).2.2.1
      rw [List.cons_append] at split ⊢
      rw [Unquote.codePoint, split]
      · rfl
      · intro braced open_
        exact brace (List.cons.inj open_).1

/-- So are digits in braces. -/
theorem codePoint_braced (h : ∀ d ∈ digits, Numeral.isDigit 16 d = true) (rest : List Char) :
    Unquote.codePoint ('\x7b' :: (digits ++ '\x7d' :: rest)) = (digits, rest) := by
  have inside : ∀ d ∈ digits, (d != '\x7d') = true := by
    intro d hd
    exact bne_iff_ne.mpr (of_isDigit (h d hd)).2.2.2
  rw [Unquote.codePoint, List.takeWhile_append_of_pos inside, List.dropWhile_append_of_pos inside]
  simp

end Digits

/-! ## Literals -/

namespace StringPart

/-- What the part stands for when it is interpreted. -/
def interpreted : StringPart → List Char
  | plain c => [c]
  | escaped c => [escapedCharacter c]
  | zero => ['\x00']
  | byte digits | unit digits | codePoint digits => hexChar digits
  | continuation terminator => terminator

theorem letterEscape_eq {c : Char} (h : Lexer.isDecimal c = false) :
    letterEscape c = escapedCharacter c := by
  fun_cases letterEscape c with
  | case4 => cases h
  | case8 c n t r zero b f v => simp_all [escapedCharacter]
  | _ => rfl

/-- A part of a literal is resolved by itself, whatever follows it. -/
theorem resolve_spelling {quote : Char} {part : StringPart} (h : part.Legal quote)
    (rest : List Char) :
    Unquote.resolve (part.spelling ++ rest) = part.interpreted ++ Unquote.resolve rest := by
  have escape {c : Char} (x : c ≠ 'x') (u : c ≠ 'u') (rest : List Char) :
      Unquote.resolve ('\\' :: c :: rest) = letterEscape c :: Unquote.resolve rest := by
    rw [Unquote.resolve] <;> simp_all
  cases part with
  | plain c =>
      obtain ⟨-, backslash, -⟩ := h
      rw [spelling, List.singleton_append, Unquote.resolve] <;> simp_all [interpreted]
  | escaped c =>
      obtain ⟨digit, x, u, -⟩ := h
      exact (escape x u rest).trans (congrArg (· :: Unquote.resolve rest) (letterEscape_eq digit))
  | zero => exact escape (by decide) (by decide) rest
  | byte digits =>
      obtain ⟨length, -⟩ := h
      show Unquote.resolve ('\\' :: 'x' :: (digits ++ rest)) = _
      rw [Unquote.resolve, ← length, List.take_left, List.drop_left]
      rfl
  | unit digits =>
      obtain ⟨length, hex⟩ := h
      show Unquote.resolve ('\\' :: 'u' :: (digits ++ rest)) = _
      rw [Unquote.resolve, codePoint_digits length (List.all_eq_true.mp hex)]
      rfl
  | codePoint digits =>
      obtain ⟨-, hex, -⟩ := h
      show Unquote.resolve ('\\' :: 'u' :: '\x7b' :: (digits ++ ['\x7d'] ++ rest)) = _
      rw [List.append_assoc, List.singleton_append, Unquote.resolve,
        codePoint_braced (List.all_eq_true.mp hex)]
      rfl
  | continuation terminator =>
      -- the backslash takes the first character with it, the second one stands for itself
      have plain (rest : List Char) :
          Unquote.resolve ('\n' :: rest) = '\n' :: Unquote.resolve rest := by
        rw [Unquote.resolve] <;> simp
      have known : terminator ∈ lineTerminators := h
      simp only [lineTerminators, List.mem_cons, List.not_mem_nil, or_false] at known
      rcases known with rfl | rfl | rfl | rfl | rfl
      · exact escape (by decide) (by decide) rest
      · exact escape (by decide) (by decide) rest
      · exact (escape (by decide) (by decide) _).trans (congrArg ('\r' :: ·) (plain rest))
      · exact escape (by decide) (by decide) rest
      · exact escape (by decide) (by decide) rest

/-- Where neither a surrogate nor the end of a line is escaped, the part stands for the same. -/
theorem codeUnits_interpreted {quote : Char} {part : StringPart} (h : part.Legal quote)
    (common : part.IsCommon) : codeUnits part.interpreted = part.value := by
  have single {n : Nat} (lt : n < 0x10000) : unitsOf n = [n] := if_pos lt
  have nonempty {digits : List Char} {n : Nat} (length : digits.length = n + 1) : digits ≠ [] := by
    rintro rfl
    cases length
  cases part with
  | plain c => exact List.flatMap_singleton _ c
  | escaped c => exact List.flatMap_singleton _ _
  | zero => rfl
  | byte digits =>
      obtain ⟨length, hex⟩ := h
      have lt := hexNumber_lt digits
      rw [length] at lt
      have valid : (hexNumber digits).isValidChar := .inl (Nat.lt_trans lt (by decide))
      exact (codeUnits_hexChar (nonempty length) (List.all_eq_true.mp hex) valid).trans
        (single (Nat.lt_trans lt (by decide)))
  | unit digits =>
      obtain ⟨length, hex⟩ := h
      have lt := hexNumber_lt digits
      rw [length] at lt
      exact (codeUnits_hexChar (nonempty length) (List.all_eq_true.mp hex) common).trans (single lt)
  | codePoint digits =>
      obtain ⟨nonempty, hex, -⟩ := h
      exact codeUnits_hexChar nonempty (List.all_eq_true.mp hex) common
  | continuation => cases common

end StringPart

theorem LegalParts.legal {quote : Char} {parts : List StringPart} (h : LegalParts quote parts) :
    ∀ part ∈ parts, part.Legal quote := by
  induction parts with
  | nil => exact nofun
  | cons part rest ih => exact List.forall_mem_cons.mpr ⟨h.1, ih h.2.1⟩

/-- What a literal stands for when it is interpreted, part by part. -/
theorem unquote_of_isStringLiteral {text : String} {quote : Char} {parts : List StringPart}
    (h : IsStringLiteral text quote parts) :
    (unquote text).toList = parts.flatMap StringPart.interpreted := by
  have resolved {parts : List StringPart} (legal : ∀ part ∈ parts, part.Legal quote) :
      Unquote.resolve (parts.flatMap StringPart.spelling) =
        parts.flatMap StringPart.interpreted := by
    induction parts with
    | nil => rw [List.flatMap_nil, List.flatMap_nil, Unquote.resolve]
    | cons part rest ih =>
        obtain ⟨first, later⟩ := List.forall_mem_cons.mp legal
        rw [List.flatMap_cons, List.flatMap_cons, StringPart.resolve_spelling first, ih later]
  rw [unquote, String.toList_ofList, h.text, List.drop_one, List.tail_cons, List.dropLast_concat,
    resolved h.legal.legal]

/-- A string literal is emitted as it stands, and the target gives it the value that it has
when it is interpreted, provided that neither a surrogate nor the end of a line is escaped. -/
theorem string_value {text : String} {quote : Char} {parts : List StringPart}
    (h : IsStringLiteral text quote parts) (common : ∀ part ∈ parts, part.IsCommon) :
    (code (.str text)).text = text ∧
      codeUnits (unquote text).toList = parts.flatMap StringPart.value := by
  refine ⟨rfl, ?_⟩
  rw [unquote_of_isStringLiteral h, codeUnits, List.flatMap_assoc]
  exact List.flatMap_congr fun part hp =>
    StringPart.codeUnits_interpreted (h.legal.legal part hp) (common part hp)

/-- A literal with one part of each kind. -/
def mixedLiteral : List StringPart :=
  [.plain 'é', .escaped 'n', .escaped '\'', .zero, .plain 'a', .byte ['4', '1'],
    .unit ['2', '0', 'a', 'C'], .codePoint ['1', 'F', '6', '0', '0']]

theorem string_value_mixedLiteral :
    IsStringLiteral "'é\\n\\'\\0a\\x41\\u20aC\\u\x7b1F600\x7d'" '\'' mixedLiteral ∧
      (∀ part ∈ mixedLiteral, part.IsCommon) ∧
      codeUnits (unquote "'é\\n\\'\\0a\\x41\\u20aC\\u\x7b1F600\x7d'").toList =
        [0xe9, 0x0a, 0x27, 0, 0x61, 0x41, 0x20ac, 0xd83d, 0xde00] := by
  have literal : IsStringLiteral "'é\\n\\'\\0a\\x41\\u20aC\\u\x7b1F600\x7d'" '\'' mixedLiteral := by
    exact ⟨.inr rfl, by decide, by decide +kernel⟩
  have common : ∀ part ∈ mixedLiteral, part.IsCommon := by decide +kernel
  exact ⟨literal, common, (string_value literal common).2⟩

/-- The target reads two escapes of surrogates as one character, and takes no notice of the
end of a line after a backslash. When they are interpreted, the former are left out and the
latter is kept. -/
theorem string_value_differs :
    (IsStringLiteral "'\\uD83D\\uDE00'" '\''
        [.unit ['D', '8', '3', 'D'], .unit ['D', 'E', '0', '0']] ∧
      [StringPart.unit ['D', '8', '3', 'D'], .unit ['D', 'E', '0', '0']].flatMap
        StringPart.value = codeUnits ['😀'] ∧
      unquote "'\\uD83D\\uDE00'" = "") ∧
    IsStringLiteral "'a\\\nb'" '\'' [.plain 'a', .continuation ['\n'], .plain 'b'] ∧
      [StringPart.plain 'a', .continuation ['\n'], .plain 'b'].flatMap
        StringPart.value = codeUnits ['a', 'b'] ∧
      unquote "'a\\\nb'" = "a\nb" := by
  refine ⟨⟨⟨.inr rfl, by decide, by decide +kernel⟩, by decide, ?_⟩,
    ⟨.inr rfl, by decide, by decide +kernel⟩, by decide, ?_⟩
  · decide +kernel
  · decide +kernel

end Target

end ScriptLang
