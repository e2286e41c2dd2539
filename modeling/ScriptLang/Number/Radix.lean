import ScriptLang.Number.Decimal

/-!
# Numbers in other bases

Digits go up to thirty-five and are written in lowercase. Literals with a radix
prefix are read exactly as long as the number fits one hundred and twenty-eight
bits, and digit by digit in doubles beyond that; the integer text of a number is
cut off at the same width.
-/

namespace ScriptLang.Number

/-- The bound of exact radix arithmetic. -/
def exactBound : Nat := Nat.pow 2 128

/-- The values of digits of a radix, if every character is one. -/
def digitValues? (radix : Nat) (cs : List Char) : Option (List Nat) :=
  cs.mapM (Numeral.digit? radix)

/-- The integer that digits denote, as long as it stays below the bound. -/
def ofRadixDigits? (radix : Nat) (digits : List Nat) : Option Nat :=
  digits.foldlM (fun n d =>
    if radix * n + d < exactBound then some (radix * n + d) else none) 0

/-- The digits taken one after the other in doubles, rounding at each. -/
def foldDigits (radix : Nat) (digits : List Nat) : Float :=
  digits.foldl (fun x d => x * Float.ofNat radix + Float.ofNat d) 0

/-- The number that at least one digit of a radix denotes. -/
def readRadix? (radix : Nat) (cs : List Char) : Option Float := do
  if cs.isEmpty then none
  let digits ← digitValues? radix cs
  return ((ofRadixDigits? radix digits).map Float.ofNat).getD (foldDigits radix digits)

/-- The integer part of a double in a base, with a sign if it is below zero. -/
def inBase (base : Nat) (x : Float) : String :=
  match integerPart? x with
  | none => text x
  | some n =>
    let digits := Numeral.digitsIn base (min n.natAbs (exactBound - 1))
    String.ofList (if n < 0 then '-' :: digits else digits)

/-- The number that text with an optional sign denotes in a base. -/
def ofBase? (base : Nat) (cs : List Char) : Option Float := do
  let (sign, digits) := match cs with
    | '-' :: rest => ((-1 : Float), rest)
    | '+' :: rest => (1, rest)
    | _ => (1, cs)
  if digits.isEmpty then none
  let values ← digitValues? base digits
  return sign * foldDigits base values

end ScriptLang.Number
