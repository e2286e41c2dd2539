import ScriptLang.Proofs.Token.Lexeme

/-!
# Strings and brackets of a text

A scan of emitted text knows strings and brackets and nothing else. A string goes from
its quote to the next same quote, and a backslash takes the next character with it.
Outside of strings a closing bracket must be the one that the innermost open bracket
waits for; a backquote, and a slash with a slash or an asterisk behind it, end the scan.

`Scans text ks ls` says that a scan comes through the text, that before it the brackets
`ks` are awaited, innermost first, and after it the brackets `ls`. What else is awaited
around it makes no difference, so texts are put together by what they open and close.
-/

namespace ScriptLang

namespace Lexer

/-- After its first digit a number has letters, digits, underscores and a point. -/
theorem inRadixDigits_of_numberRun {first : Char} {rest : List Char}
    (h : numberRun first rest = rest.length) : ∀ c ∈ rest, inRadixDigits c = true ∨ c = '.' := by
  have digits {c : Char} (hc : inDigits c = true) : inRadixDigits c = true := by
    simp [inRadixDigits, hc]
  have all {p : Char → Bool} {cs : List Char} (hn : (cs.takeWhile p).length = cs.length) :
      ∀ c ∈ cs, p c = true := by
    intro c hc
    rw [← (List.takeWhile_prefix p).eq_of_length hn] at hc
    exact List.mem_takeWhile_imp hc
  cases radix : hasRadix first rest with
  | true =>
      cases rest with
      | nil => nofun
      | cons x rest =>
          rw [numberRun_of_hasRadix radix, List.length_cons, Nat.add_right_cancel_iff] at h
          intro c hc
          rcases List.mem_cons.mp hc with rfl | hc
          · left
            simp only [hasRadix, Numeral.radixLetter?, Bool.and_eq_true] at radix
            obtain ⟨-, letter⟩ := radix
            split_ifs at letter with hex octal binary
            · rcases hex with rfl | rfl <;> rfl
            · rcases octal with rfl | rfl <;> rfl
            · rcases binary with rfl | rfl <;> rfl
            · cases letter
          · exact .inl (all h c hc)
  | false =>
      rw [numberRun_eq_decimalRun radix] at h
      rcases decimalRun_cases rest with whole | ⟨whole, d, fraction, rfl, hw, hd, hn⟩
      · exact fun c hc => .inl (digits (all (whole.symm.trans h) c hc))
      · rw [hn] at h
        have fractional : ∀ c ∈ fraction, inDigits c = true := by
          apply all
          simp only [List.length_append, List.length_cons] at h
          omega
        intro c hc
        simp only [List.mem_append, List.mem_cons] at hc
        rcases hc with hc | rfl | rfl | hc
        · exact .inl (digits (hw c hc))
        · exact .inr rfl
        · exact .inl (digits (by simp [inDigits, hd]))
        · exact .inl (digits (fractional c hc))

end Lexer

namespace Target

open Lexer

/-- Where in a text a scan is. -/
inductive ScanMode where
  | code
  /-- In code, right behind a slash. -/
  | slash
  | string (quote : Char)
  /-- In a string, right behind a backslash. -/
  | escape (quote : Char)
  deriving Repr, DecidableEq

/-- A scan in the middle of a text. -/
structure Scan where
  mode : ScanMode
  /-- The closing brackets that are still to come, innermost first. -/
  awaited : List Char
  deriving Repr, DecidableEq

/-- The bracket that closes an opening one. -/
def closing? : Char → Option Char
  | '(' => some ')'
  | '[' => some ']'
  | '\x7b' => some '\x7d'
  | _ => none

/-- The closing brackets. -/
def closings : List Char := [')', ']', '\x7d']

/-- A character outside of strings. -/
def scanCode (awaited : List Char) (c : Char) : Option Scan :=
  if c = '"' ∨ c = '\'' then some ⟨.string c, awaited⟩
  else if c = '/' then some ⟨.slash, awaited⟩
  else if c = '\x60' then none
  else if c ∈ closings then
    match awaited with
    | [] => none
    | close :: rest => if c = close then some ⟨.code, rest⟩ else none
  else some ⟨.code, (closing? c).toList ++ awaited⟩

namespace Scan

/-- The next character. -/
def step (s : Scan) (c : Char) : Option Scan :=
  match s.mode with
  | .code => scanCode s.awaited c
  | .slash => if c = '/' ∨ c = '*' then none else scanCode s.awaited c
  | .string quote =>
    if c = '\\' then some ⟨.escape quote, s.awaited⟩
    else if c = quote then some ⟨.code, s.awaited⟩
    else some s
  | .escape quote => some ⟨.string quote, s.awaited⟩

/-- The characters one after the other. -/
def run (s : Scan) (cs : List Char) : Option Scan := cs.foldlM step s

theorem run_cons (s : Scan) (c : Char) (cs : List Char) :
    s.run (c :: cs) = (s.step c).bind fun s => s.run cs := rfl

theorem run_append (s : Scan) (a b : List Char) :
    s.run (a ++ b) = (s.run a).bind fun s => s.run b := List.foldlM_append

/-- The scan with more brackets open around it. -/
def under (s : Scan) (outer : List Char) : Scan := ⟨s.mode, s.awaited ++ outer⟩

theorem scanCode_under {awaited : List Char} {c : Char} {t : Scan}
    (h : scanCode awaited c = some t) (outer : List Char) :
    scanCode (awaited ++ outer) c = some (t.under outer) := by
  unfold scanCode at h ⊢
  split_ifs at h ⊢
  · obtain rfl := Option.some.inj h
    rfl
  · obtain rfl := Option.some.inj h
    rfl
  · cases awaited with
    | nil => cases h
    | cons close rest =>
        dsimp only [List.cons_append] at h ⊢
        split at h
        next same =>
          obtain rfl := Option.some.inj h
          rw [if_pos same]
          rfl
        next => cases h
  · obtain rfl := Option.some.inj h
    simp [under]

theorem step_under {s t : Scan} {c : Char} (h : s.step c = some t) (outer : List Char) :
    (s.under outer).step c = some (t.under outer) := by
  obtain ⟨mode, awaited⟩ := s
  cases mode with
  | code => exact scanCode_under h outer
  | slash =>
      simp only [step, under] at h ⊢
      split_ifs at h ⊢
      exact scanCode_under h outer
  | string quote =>
      simp only [step, under] at h ⊢
      split_ifs at h ⊢ <;> obtain rfl := Option.some.inj h <;> rfl
  | escape quote =>
      obtain rfl := Option.some.inj h
      rfl

/-- What is open around a text makes no difference to its scan. -/
theorem run_under {s t : Scan} {cs : List Char} (h : s.run cs = some t) (outer : List Char) :
    (s.under outer).run cs = some (t.under outer) := by
  induction cs generalizing s with
  | nil =>
      obtain rfl := Option.some.inj h
      rfl
  | cons c cs ih =>
      rw [run_cons] at h ⊢
      obtain ⟨s', hs, hr⟩ := Option.bind_eq_some_iff.mp h
      rw [step_under hs outer]
      exact ih hr

end Scan

/-- Between code and code, the text closes the brackets `ks` and leaves `ls` to be closed. -/
def Scans (text : String) (ks ls : List Char) : Prop :=
  (Scan.mk .code ks).run text.toList = some ⟨.code, ls⟩

instance (text : String) (ks ls : List Char) : Decidable (Scans text ks ls) :=
  inferInstanceAs (Decidable (_ = _))

/-- Every bracket of the text is closed by its own partner in nested order, and every
string ends; outside of strings are no comments and no backquotes. -/
def WellNested (text : String) : Prop := Scans text [] []

namespace Scans

variable {a b text inner : String} {ks ls ms : List Char}

theorem empty (ks : List Char) : Scans "" ks ks := rfl

theorem append (ha : Scans a ks ls) (hb : Scans b ls ms) : Scans (a ++ b) ks ms := by
  rw [Scans, String.toList_append, Scan.run_append, ha]
  exact hb

theorem under (h : Scans text ks ls) (outer : List Char) :
    Scans text (ks ++ outer) (ls ++ outer) :=
  Scan.run_under h outer

/-- A text that closes what it opens goes between any two others. -/
theorem around {l : List Char} (ha : Scans a ks l) (hi : Scans inner [] []) (hb : Scans b l ms) :
    Scans (a ++ inner ++ b) ks ms :=
  (ha.append (hi.under l)).append hb

/-! ## Lexemes -/

/-- The characters that a scan takes notice of in code. -/
def notable : List Char := ['"', '\'', '/', '\x60', '(', ')', '[', ']', '\x7b', '\x7d']

theorem of_plain (h : ∀ c ∈ text.toList, c ∉ notable) : Scans text [] [] := by
  rw [Scans]
  generalize text.toList = cs at h ⊢
  induction cs with
  | nil => rfl
  | cons c cs ih =>
      obtain ⟨plain, rest⟩ := List.forall_mem_cons.mp h
      have stays : (Scan.mk .code []).step c = some ⟨.code, []⟩ := by
        simp only [notable, List.mem_cons, List.not_mem_nil, or_false, not_or] at plain
        simp [Scan.step, scanCode, closings, closing?, plain]
      rw [Scan.run_cons, stays]
      exact ih rest

/-- A word is made of characters that a scan passes over. -/
theorem word {dollar : Bool} (h : LexesAs dollar .word text) : Scans text [] [] := by
  have other : ∀ c ∈ notable, continuesWord dollar c = false :=
    forall_mem_of_all (by cases dollar <;> decide)
  refine of_plain fun c hc hn => ?_
  have continues := continuesWord_of_lexesAs h c hc
  rw [other c hn] at continues
  cases continues

/-- A number is made of letters, digits and a point. -/
theorem number {dollar : Bool} (h : LexesAs dollar .number text) : Scans text [] [] := by
  have digit : ∀ c ∈ notable, isDecimal c = false := forall_mem_of_all (by decide)
  have other : ∀ c ∈ notable, inRadixDigits c = false ∧ c ≠ '.' := forall_mem_of_all (by decide)
  obtain ⟨c, rest, ht, -, hl⟩ := (lexesAs_iff rfl).mp h
  cases lexeme_eq_item_iff.mp hl with
  | number _ _ decimal run =>
      refine of_plain fun d hd hn => ?_
      rw [ht] at hd
      rcases List.mem_cons.mp hd with rfl | hd
      · rw [digit d hn] at decimal
        cases decimal
      · rcases inRadixDigits_of_numberRun run d hd with digits | point
        · rw [(other d hn).1] at digits
          cases digits
        · exact (other d hn).2 point

/-- A string ends with the quote that closes it. -/
theorem run_string {quote : Char} {cs : List Char} {n : Nat} (h : stringRun quote cs = (true, n)) :
    (Scan.mk (.string quote) []).run (cs.take n) = some ⟨.code, []⟩ := by
  fun_induction stringRun quote cs generalizing n with
  | case1 | case2 | case4 => simp at h
  | case3 c cs closed m heq ih =>
      obtain ⟨rfl, rfl⟩ := by simpa using h
      exact ih heq
  | case5 c cs h1 h2 hn hq =>
      have hc := ne_backslash h1 h2
      obtain rfl : 1 = n := by simpa using h
      have closes : (Scan.mk (.string quote) []).step c = some ⟨.code, []⟩ := by
        simp only [Scan.step, if_neg hc, if_pos (beq_iff_eq.mp hq)]
      rw [List.take_succ_cons, Scan.run_cons, closes]
      rfl
  | case6 c cs h1 h2 hn hq closed m heq ih =>
      have hc := ne_backslash h1 h2
      obtain ⟨rfl, rfl⟩ := by simpa using h
      have stays : (Scan.mk (.string quote) []).step c = some ⟨.string quote, []⟩ := by
        simp only [Scan.step, if_neg hc, if_neg (fun same => hq (beq_iff_eq.mpr same))]
      rw [List.take_succ_cons, Scan.run_cons, stays]
      exact ih heq

/-- A string is passed over, whatever brackets it has. -/
theorem quote {dollar : Bool} (h : LexesAs dollar .quote text) : Scans text [] [] := by
  obtain ⟨c, rest, ht, -, hl⟩ := (lexesAs_iff rfl).mp h
  cases lexeme_eq_item_iff.mp hl with
  | quote _ quote run =>
      have starts : (Scan.mk .code []).step c = some ⟨.string c, []⟩ :=
        if_pos (by simpa using quote)
      have ends := run_string run
      rw [List.take_length] at ends
      rw [Scans, ht, Scan.run_cons, starts]
      exact ends

end Scans

end Target

end ScriptLang
