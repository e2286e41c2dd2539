import ScriptLang.Number.Binary64
import ScriptLang.Token.Numeral

/-!
# Doubles as decimal text

A double is written with the fewest digits that read back as the same double,
and among those with the nearest ones; an exact tie goes up. The digits stand
where they belong, without an exponent, however large or small the number is.

Every finite double has a finite decimal expansion, so the search works on
whole numbers: the expansion is cut off after one digit, two digits and so on,
and the cut and the next number above it are the only candidates.

Reading takes an optional sign, digits with an optional point, and an optional
exponent, and rounds the value once.
-/

namespace ScriptLang.Number

/-! ## Writing -/

/-- Decimal digits with a power of ten. -/
structure Decimal where
  digits : Nat
  exponent : Int
  deriving Repr, DecidableEq

/-- The reals that read back as one positive double, scaled to whole numbers. The
ends belong to it exactly when the significand is even. -/
structure Reach where
  low : Nat
  value : Nat
  high : Nat
  closed : Bool
  /-- How many decimal places the scaling took. -/
  places : Nat
  deriving Repr

namespace Reach

/-- The reach of a positive significand and exponent. Below a power of two the
neighbouring double is only half as far away. -/
def of (significand : Nat) (exponent : Int) : Reach :=
  let quarter := exponent - 2
  let scale := if 0 ≤ quarter then Nat.pow 2 quarter.toNat else Nat.pow 5 (-quarter).toNat
  let below := if significand == Nat.pow 2 52 && exponent != -1074 then 1 else 2
  { low := (4 * significand - below) * scale
    value := 4 * significand * scale
    high := (4 * significand + 2) * scale
    closed := significand % 2 == 0
    places := (-quarter).toNat }

/-- The number reads back as the double. -/
def contains (r : Reach) (n : Nat) : Bool :=
  if r.closed then r.low ≤ n && n ≤ r.high else r.low < n && n < r.high

/-- The candidate on the grid of multiples of `step`, counted in steps: the
nearer of the two neighbours of the value that are in reach. -/
def candidate? (r : Reach) (step : Nat) : Option Nat :=
  let down := r.value / step
  let up := down + 1
  match r.contains (down * step), r.contains (up * step) with
  | true, true =>
    some (if r.value - down * step < up * step - r.value then down else up)
  | true, false => some down
  | false, true => some up
  | false, false => none

/-- The candidate on the coarsest grid that has one. `drop` is the number of
digits cut off first. -/
def shortest (r : Reach) : Nat → Decimal
  | 0 => ⟨r.value, -r.places⟩
  | drop + 1 =>
    match r.candidate? (Nat.pow 10 (drop + 1)) with
    | some digits => ⟨digits, (drop + 1 : Int) - r.places⟩
    | none => r.shortest drop

end Reach

/-- The shortest decimal that reads back as the positive double. -/
def shortestDecimal (significand : Nat) (exponent : Int) : Decimal :=
  let r := Reach.of significand exponent
  r.shortest ((Nat.toDigits 10 r.value).length - 1)

/-- Digits without the zeros at their end. -/
def dropEndZeros (cs : List Char) : List Char := (cs.reverse.dropWhile (· == '0')).reverse

/-- The digits with the point where the exponent puts it. A fraction has no
zeros at its end, and none is written as nothing at all. -/
def Decimal.text (d : Decimal) : String :=
  let digits := Nat.toDigits 10 d.digits
  if 0 ≤ d.exponent then
    String.ofList (digits ++ List.replicate d.exponent.toNat '0')
  else
    let places := (-d.exponent).toNat
    let padded := List.replicate (places + 1 - digits.length) '0' ++ digits
    let whole := padded.take (padded.length - places)
    let fraction := dropEndZeros (padded.drop (padded.length - places))
    String.ofList (if fraction.isEmpty then whole else whole ++ '.' :: fraction)

/-- The text of a double. Both zeros are written alike. -/
def text (x : Float) : String :=
  match exact x with
  | .nan => "NaN"
  | .infinite negative => if negative then "-Infinity" else "Infinity"
  | .finite negative m e =>
    if m = 0 then "0"
    else (if negative then "-" else "") ++ (shortestDecimal m e).text

/-! ## Reading -/

/-- The number that decimal digits spell. -/
def ofDigits (cs : List Char) : Nat :=
  Numeral.value 10 (cs.reverse.map fun c => c.toNat - '0'.toNat)

/-- A decimal digit. -/
def isDecimalDigit (c : Char) : Bool := '0' ≤ c && c ≤ '9'

/-- An exponent: an optional sign and at least one digit, and nothing else. -/
def readExponent? (cs : List Char) : Option Int :=
  let (negative, digits) := match cs with
    | '-' :: rest => (true, rest)
    | '+' :: rest => (false, rest)
    | _ => (false, cs)
  if digits.isEmpty || !digits.all isDecimalDigit then none
  else some (signed negative (ofDigits digits))

/-- The double nearest to digits times a power of ten, the first digit not being zero.
Beyond ten to the 310th everything is infinite, and below ten to the minus 330th
everything is zero. -/
def ofDecimal (digits : List Char) (exponent : Int) : Float :=
  let size := digits.length + exponent
  if digits.isEmpty || size < -330 then 0
  else if size > 310 then infinity
  else Float.ofScientific (ofDigits digits) (exponent < 0) exponent.natAbs

/-- An unsigned decimal: digits on at least one side of an optional point, and an
optional exponent. -/
def readUnsigned? (cs : List Char) : Option Float := do
  let whole := cs.takeWhile isDecimalDigit
  let (fraction, rest) := match cs.dropWhile isDecimalDigit with
    | '.' :: rest => (rest.takeWhile isDecimalDigit, rest.dropWhile isDecimalDigit)
    | rest => ([], rest)
  if whole.isEmpty && fraction.isEmpty then none
  let exponent ← match rest with
    | [] => some 0
    | c :: rest => if c == 'e' || c == 'E' then readExponent? rest else none
  return ofDecimal ((whole ++ fraction).dropWhile (· == '0')) (exponent - fraction.length)

/-- An unsigned number; infinity and not-a-number have names, in letters of any case. -/
def readMagnitude? (cs : List Char) : Option Float :=
  match String.ofList (cs.map Char.toLower) with
  | "inf" | "infinity" => some infinity
  | "nan" => some nan
  | _ => readUnsigned? cs

/-- A number with an optional sign. -/
def read? (cs : List Char) : Option Float :=
  match cs with
  | '-' :: rest => (readMagnitude? rest).map fun x => -x
  | '+' :: rest => readMagnitude? rest
  | _ => readMagnitude? cs

end ScriptLang.Number
