/-!
# Exact values of doubles

A finite double is a signed significand times a power of two. Whatever has to be
exact — integer parts, remainders, conversions to words — is computed on that
pair in unbounded integers, and only the result is a double again.
-/

namespace ScriptLang.Number

/-- What a double stands for. A zero keeps its sign. -/
inductive Exact where
  | nan
  | infinite (negative : Bool)
  | finite (negative : Bool) (significand : Nat) (exponent : Int)
  deriving Repr, DecidableEq

/-- The sign of a decoded double. -/
def isNegative : Float.Model.UnpackedFloat.Sign → Bool
  | .negative => true
  | .positive => false

/-- The sign of a double to be packed. -/
def signOf (negative : Bool) : Float.Model.UnpackedFloat.Sign :=
  if negative then .negative else .positive

/-- The exact value of a double. -/
def exact (x : Float) : Exact :=
  match x.toModel.unpack with
  | .notANumber => .nan
  | .infinity s => .infinite (isNegative s)
  | .zero s => .finite (isNegative s) 0 0
  | .finite s m e _ => .finite (isNegative s) m e

/-- The double nearest to a signed significand times a power of two, ties to even. -/
def nearest (negative : Bool) (significand : Nat) (exponent : Int) : Float :=
  .ofModel (.pack
    (if significand = 0 then .zero (signOf negative)
     else .round .binary64 (signOf negative) significand exponent))

def nan : Float := .ofModel (.pack .notANumber)

def infinity : Float := .ofModel (.pack (.infinity .positive))

/-- A significand times a power of two, without its fraction. -/
def truncated (significand : Nat) (exponent : Int) : Nat :=
  if 0 ≤ exponent then significand <<< exponent.toNat else significand >>> (-exponent).toNat

/-- An integer from its sign and magnitude. -/
def signed (negative : Bool) (magnitude : Nat) : Int :=
  if negative then -(magnitude : Int) else magnitude

/-- The integer part of a finite double; fractions go toward zero. -/
def integerPart? (x : Float) : Option Int :=
  match exact x with
  | .finite negative m e => some (signed negative (truncated m e))
  | _ => none

/-- The significand times the power of two is a whole number. -/
def isWhole (significand : Nat) (exponent : Int) : Bool :=
  0 ≤ exponent || significand % Nat.pow 2 (-exponent).toNat == 0

/-- The integer that a double is, if it is one. -/
def integer? (x : Float) : Option Int :=
  match exact x with
  | .finite negative m e => if isWhole m e then some (signed negative (truncated m e)) else none
  | _ => none

/-- The double is below zero or a negative zero. -/
def hasSign (x : Float) : Bool :=
  match exact x with
  | .nan => false
  | .infinite negative => negative
  | .finite negative _ _ => negative

/-- The magnitude of `x` with the sign of `y`. -/
def withSignOf (x y : Float) : Float := if hasSign y then -x.abs else x.abs

/-- The double without its fraction. -/
def trunc (x : Float) : Float := if hasSign x then x.ceil else x.floor

/-- The remainder of the division that rounds toward zero. It is exact and takes
the sign of the dividend. -/
def rem (x y : Float) : Float :=
  match exact x, exact y with
  | .finite negative m e, .finite _ n f =>
    if n = 0 then nan
    else
      let least := min e f
      let dividend := m <<< (e - least).toNat
      let divisor := n <<< (f - least).toNat
      nearest negative (dividend % divisor) least
  | .finite .., .infinite _ => x
  | _, _ => nan

/-- The sum of a product and a number, rounded once. Where the sum is nothing, or not
finite, the two operations give its sign and kind. -/
def mulAdd (x y z : Float) : Float :=
  match exact x, exact y, exact z with
  | .finite s m e, .finite t n f, .finite u k g =>
    let least := min (e + f) g
    let product := signed (s != t) ((m * n) <<< (e + f - least).toNat)
    let sum := product + signed u (k <<< (g - least).toNat)
    if sum = 0 then x * y + z else nearest (sum < 0) sum.natAbs least
  | _, _, _ => x * y + z

/-- A double times a power of two, rounded once. -/
def scaled (x : Float) (twos : Int) : Float :=
  match exact x with
  | .finite negative m e => nearest negative m (e + twos)
  | _ => x

/-- The integer part modulo two to the thirty-second, zero where there is none. -/
def toWord (x : Float) : UInt32 :=
  UInt32.ofNat (((integerPart? x).getD 0) % Nat.pow 2 32).toNat

/-- The same word read as a signed number. -/
def toSignedWord (x : Float) : Int32 := (toWord x).toInt32

/-- A word as a double. -/
def ofWord (w : UInt32) : Float := Float.ofNat w.toNat

/-- A signed word as a double. -/
def ofSignedWord (w : Int32) : Float := Float.ofInt w.toInt

end ScriptLang.Number
