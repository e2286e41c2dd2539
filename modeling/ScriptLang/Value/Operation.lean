import ScriptLang.Value.Equality
import ScriptLang.Value.Text

/-!
# Operators on values

Arithmetic is on doubles, with the bit operators on words of thirty-two bits.
`+` joins texts when either side is a string. Two strings are ordered by their
characters, everything else by its number. `&&` and `||` answer one of their
operands; whether the other one is evaluated at all is not settled here.
-/

namespace ScriptLang

/-- An arithmetic operator on numbers. Shifts take their distance modulo thirty-two. -/
def arithmetic (op : BinaryOp) (x y : Float) : Float :=
  match op with
  | .pow => x ^ y
  | .mul => x * y
  | .div => x / y
  | .rem => Number.rem x y
  | .floorDiv => (x / y).floor
  | .add => x + y
  | .sub => x - y
  | .shl => Number.ofSignedWord (Number.toWord x <<< (Number.toWord y % 32)).toInt32
  | .shr => Number.ofSignedWord (Number.toSignedWord x >>> (Number.toWord y % 32).toInt32)
  | .ushr => Number.ofWord (Number.toWord x >>> (Number.toWord y % 32))
  | .bitAnd => Number.ofSignedWord (Number.toSignedWord x &&& Number.toSignedWord y)
  | .bitXor => Number.ofSignedWord (Number.toSignedWord x ^^^ Number.toSignedWord y)
  | .bitOr => Number.ofSignedWord (Number.toSignedWord x ||| Number.toSignedWord y)
  | .eq | .ne | .lt | .le | .gt | .ge | .and | .or => Number.nan

/-- How two values are ordered, if they are. -/
def order? (a b : Value) : Option Ordering :=
  match a, b with
  | .str s, .str t => some (if s < t then .lt else if s = t then .eq else .gt)
  | a, b =>
    let x := a.toNumber
    let y := b.toNumber
    if x < y then some .lt else if y < x then some .gt else if x == y then some .eq else none

namespace Value

/-- A unary operator on a value. -/
def unary (op : UnaryOp) (v : Value) : Value :=
  match op with
  | .not => .bool !v.truthy
  | .neg => .num (-v.toNumber)
  | .bitNot => .num (Number.ofSignedWord (~~~Number.toSignedWord v.toNumber))

/-- The value is a string. -/
def isString : Value → Bool
  | str _ => true
  | _ => false

end Value

namespace Heap

/-- A binary operator on two values. -/
def binary (h : Heap) (op : BinaryOp) (a b : Value) : Value :=
  match op with
  | .add =>
    if a.isString || b.isString then .str (h.text a ++ h.text b)
    else .num (arithmetic .add a.toNumber b.toNumber)
  | .eq => .bool (h.deepEq a b)
  | .ne => .bool !(h.deepEq a b)
  | .lt => .bool (order? a b == some .lt)
  | .le => .bool ((order? a b).any (·.isLE))
  | .gt => .bool (order? a b == some .gt)
  | .ge => .bool ((order? a b).any (·.isGE))
  | .and => if a.truthy then b else a
  | .or => if a.truthy then a else b
  | op => .num (arithmetic op a.toNumber b.toNumber)

end Heap

end ScriptLang
