import ScriptLang.Builtin.Range
import ScriptLang.Number.Elementary
import ScriptLang.Text.Casing
import ScriptLang.Value.Container
import ScriptLang.Value.Operation

/-!
# Calling builtins

What each builtin answers. An argument that is not given is null, and arguments
are converted to numbers or to text as the builtin needs them. The two that
write need a running program and are refused here.
-/

namespace ScriptLang

/-- How the call of a builtin ends, if it does. -/
inductive Answer where
  | returned (p : Product)
  | failed (e : RuntimeError)
  /-- A progression without a last number was asked for. -/
  | endless

namespace Answer

/-- The answer of a call that makes no container. -/
def of (result : Except RuntimeError Value) : Answer :=
  match result with
  | .ok v => returned (.value v)
  | .error e => failed e

end Answer

namespace Builtin

/-- The functions of one number. -/
def math? : Builtin → Option (Float → Float)
  | abs => some Float.abs
  | floor => some Float.floor
  | ceil => some Float.ceil
  | round => some Number.roundHalfUp
  | trunc => some Number.trunc
  | sqrt => some Float.sqrt
  | cbrt => some Number.cubeRoot
  | exp => some Float.exp
  | log => some Float.log
  | log2 => some Float.log2
  | log10 => some Float.log10
  | sin => some Float.sin
  | cos => some Float.cos
  | tan => some Float.tan
  | acos => some Float.acos
  | acosh => some Float.acosh
  | asin => some Float.asin
  | asinh => some Float.asinh
  | atan => some Float.atan
  | atanh => some Float.atanh
  | sinh => some Float.sinh
  | cosh => some Float.cosh
  | tanh => some Float.tanh
  | exp2 => some Float.exp2
  | expm1 => some Number.expMinusOne
  | log1p => some Number.logOnePlus
  | _ => none

/-- The character with a code point. -/
def character (x : Float) : Except RuntimeError Value :=
  match Number.integer? x with
  | some (.ofNat n) =>
    if n.isValidChar then .ok (ofChar (Char.ofNat n))
    else .error (.misuse .makeCharacter (Number.text x))
  | _ => .error (.misuse .makeCharacter (Number.text x))

/-- A base from two to thirty-six. -/
def base (x : Float) : Except RuntimeError Nat :=
  match Number.integer? x with
  | some (.ofNat n) =>
    if 2 ≤ n ∧ n ≤ 36 then .ok n else .error (.misuse .useBase (Number.text x))
  | _ => .error (.misuse .useBase (Number.text x))

/-- The progression that the arguments of `range` describe. -/
def progression (args : List Float) : Except RuntimeError Progression :=
  match args with
  | [stop] => .ok ⟨0, stop, 1⟩
  | [start, stop] => .ok ⟨start, stop, 1⟩
  | [start, stop, step] => if step == 0 then .error .zeroStep else .ok ⟨start, stop, step⟩
  | _ => .error (.misuse .callRange (toString args.length ++ " arguments"))

/-- The list of a progression. -/
def listRange (args : List Float) : Answer :=
  match progression args with
  | .error e => .failed e
  | .ok p =>
    match p.items? with
    | none => .endless
    | some items => .returned (.list items)

/-- The answer of a builtin that makes no container. -/
def evaluate (b : Builtin) (args : List Value) (h : Heap) : Except RuntimeError Value :=
  let arg := fun i => args.getD i .null
  let number := fun i => (arg i).toNumber
  let text := fun i => h.text (arg i)
  match b with
  | len => do return .num (Float.ofNat (← h.length (arg 0)))
  | type => .ok (.str (arg 0).typeName)
  | str => .ok (.str (text 0))
  | num => .ok (.num (number 0))
  | atan2 => .ok (.num (Float.atan2 (number 0) (number 1)))
  | hypot => .ok (.num (Number.hypot (number 0) (number 1)))
  | min => .ok (.num (Number.minimum (number 0) (number 1)))
  | max => .ok (.num (Number.maximum (number 0) (number 1)))
  | ord => .ok (.num (Float.ofNat (((text 0).toList.head?.map Char.toNat).getD 0)))
  | chr => character (number 0)
  | upper => .ok (.str (Text.upper (text 0)))
  | lower => .ok (.str (Text.lower (text 0)))
  | strbase => do return .str (Number.inBase (← base (number 1)) (number 0))
  | numbase => do
    let n ← base (number 1)
    match Number.ofBase? n (Text.trimmed (text 0).toList) with
    | some x => return .num x
    | none => throw (.misuse .parseInBase (toString n))
  | b =>
    match b.math? with
    | some f => .ok (.num (f (number 0)))
    | none => .error (.notCallable b.name)

/-- The answer of a call. -/
def call (b : Builtin) (args : List Value) (h : Heap) : Answer :=
  match b with
  | range => listRange (args.map Value.toNumber)
  | b => .of (b.evaluate args h)

end Builtin

end ScriptLang
