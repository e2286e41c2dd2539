/-!
# Builtins

The functions that every program can call without defining them, by name.
-/

namespace ScriptLang

/-- The builtin functions. -/
inductive Builtin where
  | print
  | eprint
  | len
  | type
  | range
  | str
  | num
  | abs
  | floor
  | ceil
  | round
  | trunc
  | sqrt
  | cbrt
  | exp
  | log
  | log2
  | log10
  | sin
  | cos
  | tan
  | acos
  | acosh
  | asin
  | asinh
  | atan
  | atanh
  | sinh
  | cosh
  | tanh
  | exp2
  | expm1
  | log1p
  | atan2
  | hypot
  | min
  | max
  | ord
  | chr
  | upper
  | lower
  | strbase
  | numbase
  deriving Repr, DecidableEq

namespace Builtin

def all : List Builtin :=
  [print, eprint, len, type, range, str, num, abs, floor, ceil, round, trunc, sqrt, cbrt, exp,
   log, log2, log10, sin, cos, tan, acos, acosh, asin, asinh, atan, atanh, sinh, cosh, tanh,
   exp2, expm1, log1p, atan2, hypot, min, max, ord, chr, upper, lower, strbase, numbase]

/-- The name a program calls the builtin by. -/
def name : Builtin → String
  | print => "print"
  | eprint => "eprint"
  | len => "len"
  | type => "type"
  | range => "range"
  | str => "str"
  | num => "num"
  | abs => "abs"
  | floor => "floor"
  | ceil => "ceil"
  | round => "round"
  | trunc => "trunc"
  | sqrt => "sqrt"
  | cbrt => "cbrt"
  | exp => "exp"
  | log => "log"
  | log2 => "log2"
  | log10 => "log10"
  | sin => "sin"
  | cos => "cos"
  | tan => "tan"
  | acos => "acos"
  | acosh => "acosh"
  | asin => "asin"
  | asinh => "asinh"
  | atan => "atan"
  | atanh => "atanh"
  | sinh => "sinh"
  | cosh => "cosh"
  | tanh => "tanh"
  | exp2 => "exp2"
  | expm1 => "expm1"
  | log1p => "log1p"
  | atan2 => "atan2"
  | hypot => "hypot"
  | min => "min"
  | max => "max"
  | ord => "ord"
  | chr => "chr"
  | upper => "upper"
  | lower => "lower"
  | strbase => "strbase"
  | numbase => "numbase"

/-- The builtin of a name. -/
def ofName? (name : String) : Option Builtin := all.find? fun b => b.name == name

end Builtin

end ScriptLang
