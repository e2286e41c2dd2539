/-!
# Numerals

The spelling of number literals: decimal with an optional fraction, or an
integer with a radix prefix. Underscores separate digits and stand only between
two of them.
-/

namespace ScriptLang.Numeral

/-- The value of a digit in bases up to thirty-six; letters of either case follow nine. -/
def digitValue? (c : Char) : Option Nat :=
  if '0' ≤ c ∧ c ≤ '9' then some (c.toNat - '0'.toNat)
  else if 'a' ≤ c ∧ c ≤ 'z' then some (c.toNat - 'a'.toNat + 10)
  else if 'A' ≤ c ∧ c ≤ 'Z' then some (c.toNat - 'A'.toNat + 10)
  else none

/-- The value of a digit that is below `radix`. -/
def digit? (radix : Nat) (c : Char) : Option Nat :=
  (digitValue? c).filter (· < radix)

/-- The lowercase digit of a value below thirty-six. -/
def digitChar (d : Nat) : Char :=
  if d < 10 then Char.ofNat ('0'.toNat + d) else Char.ofNat ('a'.toNat + (d - 10))

/-- The digits of a number in a base from two on, most significant first. -/
def digitsIn (base n : Nat) : List Char :=
  if _h : base < 2 ∨ n < base then [digitChar n]
  else digitsIn base (n / base) ++ [digitChar (n % base)]
termination_by n
decreasing_by
  have : ¬base < 2 ∧ ¬n < base := not_or.mp _h
  exact Nat.div_lt_self (by omega) (by omega)

/-- Digits of a base, the lowest first, taken in pairs as digits of its square. -/
def paired (base : Nat) : List Nat → List Nat
  | low :: high :: rest => (low + base * high) :: paired base rest
  | digits => digits

theorem length_paired_le (base : Nat) : ∀ digits, (paired base digits).length ≤ digits.length
  | low :: high :: rest => by
    have := length_paired_le base rest
    simp only [paired, List.length_cons]
    omega
  | [_] => by simp [paired]
  | [] => by simp [paired]

/-- The number that digits of a base denote, the lowest first. Pairs are joined into
digits of the square of the base until one is left, so that few of the products are long. -/
def value (base : Nat) : List Nat → Nat
  | [] => 0
  | [digit] => digit
  | low :: high :: rest => value (base * base) ((low + base * high) :: paired base rest)
termination_by digits => digits.length
decreasing_by
  have := length_paired_le base rest
  simp only [List.length_cons]
  omega

/-- Taking digits in pairs keeps the number that they denote. -/
theorem foldr_paired (base : Nat) : ∀ digits : List Nat,
    (paired base digits).foldr (fun d n => d + base * base * n) 0 =
      digits.foldr (fun d n => d + base * n) 0
  | low :: high :: rest => by
    simp only [paired, List.foldr_cons]
    rw [foldr_paired base rest]
    simp only [Nat.mul_add, Nat.mul_assoc, Nat.add_assoc]
  | [digit] => by simp [paired]
  | [] => rfl

/-- The number is the sum of the digits times the powers of the base. -/
theorem value_eq_foldr (base : Nat) (digits : List Nat) :
    value base digits = digits.foldr (fun d n => d + base * n) 0 := by
  fun_induction value base digits with
  | case1 => rfl
  | case2 => simp
  | case3 base low high rest ih => rw [ih]; exact foldr_paired base (low :: high :: rest)

/-- A digit of the given radix. -/
def isDigit (radix : Nat) (c : Char) : Bool := (digit? radix c).isSome

/-- The radix that the second character of a prefix stands for. -/
def radixLetter? (c : Char) : Option Nat :=
  if c = 'x' ∨ c = 'X' then some 16
  else if c = 'o' ∨ c = 'O' then some 8
  else if c = 'b' ∨ c = 'B' then some 2
  else none

/-- A radix prefix with the characters after it. -/
def radixPrefix? : List Char → Option (Nat × List Char)
  | '0' :: c :: rest => (radixLetter? c).map fun radix => (radix, rest)
  | _ => none

/-- Two underscores stand next to each other. -/
def hasDoubleUnderscore : List Char → Bool
  | '_' :: '_' :: _ => true
  | _ :: rest => hasDoubleUnderscore rest
  | [] => false

/-- Digits of one radix with underscores only between two of them. -/
def wellSeparated (radix : Nat) (cs : List Char) : Bool :=
  !cs.isEmpty && cs.head? != some '_' && cs.getLast? != some '_' &&
    !hasDoubleUnderscore cs && cs.all fun c => c == '_' || isDigit radix c

/-- The text before the first point and, if there is a point, the text after it. -/
def splitPoint (cs : List Char) : List Char × Option (List Char) :=
  match cs.dropWhile (· != '.') with
  | [] => (cs, none)
  | _ :: fraction => (cs.takeWhile (· != '.'), some fraction)

/-- The literals of the grammar: a radix prefix with digits of that radix, or a
decimal whose integer part has no superfluous leading zero. -/
def isLiteral (cs : List Char) : Bool :=
  match radixPrefix? cs with
  | some (radix, digits) => wellSeparated radix digits
  | none =>
    let (whole, fraction) := splitPoint cs
    !(whole.length > 1 && whole.head? == some '0') && wellSeparated 10 whole &&
      (fraction.map (wellSeparated 10)).getD true

end ScriptLang.Numeral
