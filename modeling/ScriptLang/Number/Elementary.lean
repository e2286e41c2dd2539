import ScriptLang.Number.Binary64

/-!
# Elementary functions

Functions of doubles beyond the ones that are at hand: the length of a vector, the
cube root, `exp x - 1` and `log (1 + x)`, rounding and the choice of one of two
numbers. The cube root is computed exactly and rounded once. The length, the
exponential and the logarithm are fixed sequences of operations on doubles, each
of them rounded, so that the last digit may be one off; in the exponential and the
logarithm a product that is only added to something is rounded with the sum.
-/

namespace ScriptLang.Number

/-! ## Lengths -/

/-- The length of a vector from its sides, the longer one first. The root of the sum
of the squares is taken, and what its own square has too much, over twice the root,
is taken away again. That excess is computed from the difference of the root and
one side, where little is lost. -/
def lengthOf (long short : Float) : Float :=
  let root := (long * long + short * short).sqrt
  let excess :=
    if root ≤ 2 * short then
      let d := root - short
      long * (2 * d - long) + (d - 2 * (long - short)) * d
    else
      let d := root - long
      2 * d * (long - 2 * short) + ((4 * d - short) * short + d * d)
  root - excess / (2 * root)

/-- The length of a vector. An infinite side makes it infinite, even beside
not-a-number. A side that is too short beside the other is only added, and sides
whose squares are out of range are scaled first. -/
def hypot (x y : Float) : Float :=
  if x.isInf || y.isInf then infinity
  else if x.isNaN || y.isNaN then nan
  else
    let long := if x.abs < y.abs then y.abs else x.abs
    let short := if x.abs < y.abs then x.abs else y.abs
    if short ≤ scaled long (-54) then long + short
    else if long > scaled 1 511 then
      scaled (lengthOf (scaled long (-600)) (scaled short (-600))) 600
    else if short < scaled 1 (-459) then
      scaled (lengthOf (scaled long 600) (scaled short 600)) (-600)
    else lengthOf long short

/-! ## Cube roots -/

/-- The largest number at or above `root` whose cube is at most `n`, when it
differs from `root` in the lowest `bits` binary digits only. -/
def cubeRootFrom (n : Nat) : Nat → Nat → Nat
  | 0, root => root
  | bits + 1, root =>
    let more := root + Nat.pow 2 bits
    cubeRootFrom n bits (if Nat.pow more 3 ≤ n then more else root)

/-- The cube root, rounded once. Eighty binary digits are found, and a lowest digit
more says whether the root goes on. -/
def cubeRoot (x : Float) : Float :=
  match exact x with
  | .finite negative m e =>
    if m = 0 then x
    else
      let shift := (e % 3).toNat + 3 * (80 - m.log2 / 3)
      let cube := m <<< shift
      let root := cubeRootFrom cube 90 0
      let sticky := if Nat.pow root 3 = cube then 0 else 1
      nearest negative (2 * root + sticky) ((e - shift) / 3 - 1)
  | _ => x

/-! ## The logarithm of two

It is split in two. The upper part has so few digits that its product with any
binary exponent is exact.
-/

/-- The upper part of the logarithm of two. -/
def logTwoHigh : Float := 6.93147180369123816490e-01

/-- What the upper part leaves of the logarithm of two. -/
def logTwoLow : Float := 1.90821492927058770002e-10

/-- Half the logarithm of two, rounded up to the upper half of its word. -/
def halfLogTwo : Float := .ofBits 0x3fd62e4300000000

/-- One and a half logarithms of two, rounded to the upper half of its word. -/
def oneAndHalfLogTwo : Float := .ofBits 0x3ff0a2b200000000

/-- Fifty-six logarithms of two, rounded to the upper half of its word. -/
def fiftySixLogTwo : Float := .ofBits 0x4043687a00000000

/-- The inverse of the logarithm of two. -/
def inverseLogTwo : Float := 1.44269504088896338700

/-- Below this size a number is its own nearest `exp x - 1` and `log (1 + x)`. -/
def tiny : Float := scaled 1 (-54)

/-! ## The exponential less one -/

/-- The logarithm of the largest double. -/
def logLargest : Float := 7.09782712893383973096e+02

/-- A number as a whole multiple of the logarithm of two and a rest, with what the
rest has lost by rounding. -/
structure Reduced where
  twos : Int
  rest : Float
  lost : Float

namespace Reduced

/-- What is left when `twos` logarithms of two are taken away. -/
def of (x : Float) (twos : Int) : Reduced :=
  let high := x - Float.ofInt twos * logTwoHigh
  let low := Float.ofInt twos * logTwoLow
  let rest := high - low
  ⟨twos, rest, (high - rest) - low⟩

/-- The multiple that leaves the smallest rest. Numbers up to about half the
logarithm of two are left alone. -/
def nearest (x : Float) : Reduced :=
  let half := if hasSign x then -0.5 else 0.5
  if x.abs < halfLogTwo then ⟨0, x, 0⟩
  else if x.abs < oneAndHalfLogTwo then of x (if hasSign x then -1 else 1)
  else of x ((integerPart? (inverseLogTwo * x + half)).getD 0)

/-- The terms of `exp rest - 1` from the third on, divided by `-rest`: a quotient whose
parts are made of the rest and of a polynomial in half its square. -/
def tail (r : Reduced) : Float :=
  let half := 0.5 * r.rest
  let square := r.rest * half
  let square2 := square * square
  let low := mulAdd square (-3.33333333333331316428e-02) 1
  let middle := mulAdd square (-7.93650757867487942473e-05) 1.58730158725481460165e-03
  let high := mulAdd square (-2.01099218183624371326e-07) 4.00821782732936239552e-06
  let even := mulAdd (square2 * square2) high (mulAdd square2 middle low)
  let slope := mulAdd (-half) even 3
  (even - slope) / mulAdd (-r.rest) slope 6 * square

/-- How much `exp` of the number, divided by its power of two, falls short of
`1 + rest`. -/
def shortfall (r : Reduced) : Float :=
  let square := r.rest * (0.5 * r.rest)
  if r.twos = 0 then mulAdd r.rest r.tail (-square)
  else mulAdd (r.tail - r.lost) r.rest (-r.lost) - square

/-- `exp` of the number, less one. The one is taken away where it loses the fewest
digits. -/
def expMinusOne (r : Reduced) : Float :=
  let e := r.shortfall
  let x := r.rest
  if r.twos = 0 then x - e
  else if r.twos = -1 then 0.5 * (x - e) - 0.5
  else if r.twos = 1 then
    if x < -0.25 then -2 * (e - (x + 0.5)) else 1 + 2 * (x - e)
  else if r.twos < 0 || r.twos > 56 then scaled (1 - (e - x)) r.twos - 1
  else if r.twos < 20 then scaled ((1 - scaled 1 (-r.twos)) - (e - x)) r.twos
  else scaled ((x - (e + scaled 1 (-r.twos))) + 1) r.twos

end Reduced

/-- `exp x - 1`, without the loss of digits near zero. Beyond the logarithm of the
largest double it is infinite, and far below zero it is minus one. -/
def expMinusOne (x : Float) : Float :=
  if x.isNaN then nan
  else if x > logLargest then infinity
  else if x ≤ -fiftySixLogTwo then -1
  else if x.abs < tiny then x
  else (Reduced.nearest x).expMinusOne

/-! ## The logarithm of one more -/

/-- A positive number as a power of two times `1 + rest`, where `1 + rest` lies
between half the square root of two and the square root of two. -/
structure Normal where
  twos : Int
  rest : Float
  /-- The rest is so small that the terms of its series after the third do not count. -/
  isShort : Bool

namespace Normal

/-- The power of two and the rest of a positive number. The upper twenty digits of its
fraction tell on which side of the root it lies, and whether the rest is short. -/
def of (x : Float) : Normal :=
  let fraction := x.toBits &&& 0xfffffffffffff
  let upper := (fraction >>> 32).toNat
  let twos := ((x.toBits >>> 52).toNat : Int) - 1023
  if upper < 0x6a09e then ⟨twos, Float.ofBits (fraction ||| 0x3ff0000000000000) - 1, upper == 0⟩
  else ⟨twos + 1, Float.ofBits (fraction ||| 0x3fe0000000000000) - 1, 0x100000 - upper < 4⟩

/-- How much the logarithm of `1 + rest`, with `more` added to it, falls short of the
rest. -/
def shortfall (a : Normal) (more : Float) : Float :=
  let f := a.rest
  let square := 0.5 * f * f
  if a.isShort then square * mulAdd (-f) 0.66666666666666666 1 - more
  else
    let s := f / (2 + f)
    let z := s * s
    let z2 := z * z
    let z4 := z2 * z2
    let r1 := z2 * mulAdd z 2.857142874366239149e-01 3.999999999940941908e-01
    let r2 := mulAdd z 1.818357216161805012e-01 2.222219843214978396e-01
    let r3 := mulAdd z 1.479819860511658591e-01 1.531383769920937332e-01
    let r := mulAdd (z2 * z4) r3 (mulAdd z4 r2 (mulAdd z 6.666666666666735130e-01 r1))
    square - (s * (square + r) + more)

/-- The logarithm of the number, with a small `extra` added to it. Where there is no
power of two to be added as well, `extra` is left out. -/
def log (a : Normal) (extra : Float) : Float :=
  if a.twos = 0 then a.rest - a.shortfall 0
  else
    let k := Float.ofInt a.twos
    k * logTwoHigh - (a.shortfall (mulAdd k logTwoLow extra) - a.rest)

end Normal

/-- Above this number `log (1 + x)` is taken from the series around zero. -/
def seriesLow : Float := -.ofBits 0x3fd2bec400000000

/-- From this number on `log (1 + x)` is not taken from the series around zero. -/
def seriesHigh : Float := .ofBits 0x3fda827a00000000

/-- What `1 + x` has lost by rounding to `sum`, as a share of the sum. -/
def lostShare (x sum : Float) : Float :=
  (if sum ≥ 2 then 1 - (sum - x) else x - (sum - 1)) / sum

/-- `log (1 + x)`, without the loss of digits near zero. Around zero `x` itself is the
rest; elsewhere the sum is normalized, and what it has lost is made up for. -/
def logOnePlus (x : Float) : Float :=
  if x.isNaN || x < -1 then nan
  else if x == -1 then -infinity
  else if x.isInf then infinity
  else if x.abs < tiny then x
  else if x.abs < scaled 1 (-29) then x - x * x * 0.5
  else if seriesLow < x && x < seriesHigh then (Normal.mk 0 x false).log 0
  else if x < scaled 1 53 then (Normal.of (1 + x)).log (lostShare x (1 + x))
  else (Normal.of x).log 0

/-! ## Rounding and choice -/

/-- The nearest integer; a half goes up. -/
def roundHalfUp (x : Float) : Float :=
  let down := x.floor
  if x - down ≥ 0.5 then down + 1 else down

/-- The smaller of two numbers. Not-a-number wins, and of equal ones the second. -/
def minimum (x y : Float) : Float :=
  if x.isNaN || y.isNaN then nan else if x < y then x else y

/-- The larger of two numbers. Not-a-number wins, and of equal ones the second. -/
def maximum (x y : Float) : Float :=
  if x.isNaN || y.isNaN then nan else if y < x then x else y

end ScriptLang.Number
