import ScriptLang.Builtin.Basic
import ScriptLang.Number.Reading
import ScriptLang.Program.Basic

/-!
# Values

What expressions evaluate to. Lists, maps and functions are references into a
heap: two references are the same value exactly when they name the same place,
and a change made through one is seen through the other. A number, a string, a
truth value and null are their own identity.
-/

namespace ScriptLang

/-- Values of a running program. -/
inductive Value where
  | null
  | bool (b : Bool)
  | num (x : Float)
  | str (text : String)
  | list (id : Nat)
  | map (id : Nat)
  | closure (id : Nat)
  | builtin (b : Builtin)
  deriving Repr, DecidableEq

/-- The activation frames a piece of code sees, innermost first. -/
abbrev Env := List Nat

/-- A function with the frames of the place it was defined in. -/
structure Closure where
  function : Function
  env : Env
  deriving Repr

/-- The contents behind references. Places are handed out in order and never
given back. -/
structure Heap where
  lists : Array (Array Value) := #[]
  /-- Entries in the order in which their keys were first set. -/
  maps : Array (List (Value × Value)) := #[]
  closures : Array Closure := #[]
  deriving Repr

namespace Heap

/-- The items of a list. -/
def items (h : Heap) (id : Nat) : Array Value := h.lists.getD id #[]

/-- The entries of a map. -/
def entries (h : Heap) (id : Nat) : List (Value × Value) := h.maps.getD id []

/-- The list that is made next. -/
def nextList (h : Heap) : Value := .list h.lists.size

/-- The heap with a new list. -/
def addList (h : Heap) (items : Array Value) : Heap := { h with lists := h.lists.push items }

/-- The map that is made next. -/
def nextMap (h : Heap) : Value := .map h.maps.size

/-- The heap with a new map of exactly these entries. -/
def addMap (h : Heap) (entries : List (Value × Value)) : Heap :=
  { h with maps := h.maps.push entries }

/-- The function value that is made next. -/
def nextClosure (h : Heap) : Value := .closure h.closures.size

/-- The heap with a new function value. -/
def addClosure (h : Heap) (function : Function) (env : Env) : Heap :=
  { h with closures := h.closures.push ⟨function, env⟩ }

/-- The number of containers, which bounds how deep values without cycles nest. -/
def size (h : Heap) : Nat := h.lists.size + h.maps.size

end Heap

/-- What an operation makes: a value that is at hand, or a list that is yet to get
its place in the heap. -/
inductive Product where
  | value (v : Value)
  | list (items : Array Value)

/-- What was attempted on a value that does not allow it. -/
inductive Misuse where
  | index
  | assignPastEnd
  | assignInto
  | takeLength
  | slice
  | sliceWith
  | iterate
  | readNumber
  | assignTo
  | makeCharacter
  | useBase
  | parseInBase
  | callRange
  deriving Repr, DecidableEq

namespace Misuse

/-- The attempt in words. -/
def text : Misuse → String
  | index => "index"
  | assignPastEnd => "assign past the end of"
  | assignInto => "assign into"
  | takeLength => "take len of"
  | slice => "slice"
  | sliceWith => "slice with"
  | iterate => "iterate"
  | readNumber => "read number"
  | assignTo => "assign to"
  | makeCharacter => "make a character from"
  | useBase => "use base"
  | parseInBase => "parse integer in base"
  | callRange => "call range with"

end Misuse

/-- Why a running program stops, unless it catches the error. -/
inductive RuntimeError where
  /-- A thrown value that nothing caught. -/
  | thrown (text : String)
  | assertionFailed (place : String)
  | undefined (name : String)
  | notCallable (name : String)
  | misuse (attempt : Misuse) (subject : String)
  | zeroStep
  | stackOverflow
  deriving Repr, DecidableEq

namespace RuntimeError

/-- The error in words. -/
def message : RuntimeError → String
  | thrown text => "uncaught exception: " ++ text
  | assertionFailed place => place ++ ": assertion failed"
  | undefined name => name ++ " is not defined"
  | notCallable name => name ++ " is not a function"
  | misuse attempt subject => "cannot " ++ attempt.text ++ " " ++ subject
  | zeroStep => "range step cannot be zero"
  | stackOverflow => "Maximum call stack size exceeded"

end RuntimeError

namespace Value

/-- The name of the type of a value. -/
def typeName : Value → String
  | null => "null"
  | bool _ => "bool"
  | num _ => "number"
  | str _ => "string"
  | list _ => "list"
  | map _ => "map"
  | closure _ | builtin _ => "fn"

/-- A misuse of the value, named by its type. -/
def misused (v : Value) (attempt : Misuse) : RuntimeError := .misuse attempt v.typeName

/-- Whether a condition holds on the value. -/
def truthy : Value → Bool
  | null => false
  | bool b => b
  | num x => x != 0 && !x.isNaN
  | str text => !text.isEmpty
  | list _ | map _ | closure _ | builtin _ => true

/-- The value as a number. What has no number of its own is not-a-number. -/
def toNumber : Value → Float
  | null => 0
  | bool b => if b then 1 else 0
  | num x => x
  | str text => Number.ofText text
  | list _ | map _ | closure _ | builtin _ => Number.nan

end Value

end ScriptLang
