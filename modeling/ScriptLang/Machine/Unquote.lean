import ScriptLang.Token.Numeral

/-!
# The contents of string literals

What a string literal stands for: its text without the quotes and with escapes
resolved. An escape that names no character contributes nothing.

An escape by code point takes four bytes of text or the digits between braces;
where four bytes end inside a character, or the text is shorter, everything that
is left is taken.
-/

namespace ScriptLang.Unquote

/-- The number that hexadecimal digits denote, below two to the thirty-second. One
plus sign may stand before them. -/
def hexValue? (cs : List Char) : Option Nat :=
  let digits := match cs with
    | '+' :: rest => rest
    | _ => cs
  if digits.isEmpty then none
  else
    (digits.mapM (Numeral.digit? 16)).bind fun values =>
      let n := values.foldl (fun n d => 16 * n + d) 0
      if n < Nat.pow 2 32 then some n else none

/-- The character of a code point in hexadecimal, if there is one. -/
def hexChar (cs : List Char) : List Char :=
  match hexValue? cs with
  | some n => if n.isValidChar then [Char.ofNat n] else []
  | none => []

/-- The first characters that take `size` bytes, and the rest; none if `size` bytes
end inside a character or the text is shorter. -/
def splitBytes? (size : Nat) (cs : List Char) : Option (List Char × List Char) :=
  if size = 0 then some ([], cs)
  else
    match cs with
    | [] => none
    | c :: rest =>
      if c.utf8Size ≤ size then
        (splitBytes? (size - c.utf8Size) rest).map fun (taken, left) => (c :: taken, left)
      else none
termination_by cs.length

/-- The digits of an escape by code point, and the text after it. Without a closing
brace all of the text is taken. -/
def codePoint (cs : List Char) : List Char × List Char :=
  match cs with
  | '\x7b' :: braced => (braced.takeWhile (· != '\x7d'), (braced.dropWhile (· != '\x7d')).drop 1)
  | _ => (splitBytes? 4 cs).getD (cs, [])

/-- The character of an escape by a single letter. -/
def letterEscape (c : Char) : Char :=
  match c with
  | 'n' => '\n'
  | 't' => '\t'
  | 'r' => '\r'
  | '0' => '\x00'
  | 'b' => '\x08'
  | 'f' => '\x0c'
  | 'v' => '\x0b'
  | c => c

theorem length_splitBytes? (size : Nat) (cs : List Char) :
    ∀ p ∈ splitBytes? size cs, p.2.length ≤ cs.length := by
  fun_induction splitBytes? size cs with
  | case1 => simp
  | case2 => simp
  | case3 size h c rest hsize ih =>
    intro p hp
    obtain ⟨q, hq, rfl⟩ := Option.map_eq_some_iff.1 hp
    exact Nat.le_succ_of_le (ih q hq)
  | case4 => simp

/-- The text after an escape is no longer than the text it stands in. -/
theorem length_codePoint (cs : List Char) : (codePoint cs).2.length ≤ cs.length := by
  unfold codePoint
  split
  · next braced =>
    have := (List.dropWhile_suffix (· != '\x7d') (l := braced)).length_le
    simp only [List.length_drop, List.length_cons]
    omega
  · cases h : splitBytes? 4 cs with
    | none => simp
    | some p => simpa using length_splitBytes? 4 cs p h

/-- Text with its escapes resolved. -/
def resolve (cs : List Char) : List Char :=
  match cs with
  | [] => []
  | '\\' :: [] => []
  | '\\' :: 'x' :: rest => hexChar (rest.take 2) ++ resolve (rest.drop 2)
  | '\\' :: 'u' :: rest => hexChar (codePoint rest).1 ++ resolve (codePoint rest).2
  | '\\' :: c :: rest => letterEscape c :: resolve rest
  | c :: rest => c :: resolve rest
termination_by cs.length
decreasing_by
  all_goals have := length_codePoint rest
  all_goals simp_all
  all_goals omega

end ScriptLang.Unquote

namespace ScriptLang

/-- What a string literal stands for. Its first and last characters are the quotes. -/
def unquote (literal : String) : String :=
  String.ofList (Unquote.resolve (literal.toList.drop 1).dropLast)

end ScriptLang
