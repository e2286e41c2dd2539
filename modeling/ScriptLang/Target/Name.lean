/-!
# Names in emitted code

A program name is written unchanged unless the target reserves it or it begins
or ends with an underscore; then one underscore is added at its end. Every name
of the compiler's own begins with an underscore and ends with none, so the two
kinds never meet, and names that differ stay different.
-/

namespace ScriptLang.Target

/-- Words that the target does not take as a variable, with the globals that
emitted code refers to. `true`, `false` and `null` mean the same on both sides. -/
def reserved : List String :=
  ["Map", "Math", "arguments", "await", "class", "const", "debugger", "default", "delete", "do",
   "enum", "eval", "export", "extends", "finally", "function", "implements", "import", "in",
   "instanceof", "interface", "let", "new", "package", "private", "protected", "public",
   "static", "super", "switch", "this", "typeof", "undefined", "var", "void", "with", "yield"]

/-- The name begins or ends with an underscore. -/
def isUnderscored (name : String) : Bool :=
  name.toList.head? == some '_' || name.toList.getLast? == some '_'

/-- The name under which emitted code holds a program's variable. -/
def mangle (name : String) : String :=
  if reserved.contains name || isUnderscored name then name ++ "_" else name

/-- The preamble's functions that emitted code calls on its own account. -/
inductive Helper where
  | get
  | set
  | update
  | slice
  | iterate
  | entries
  | equal
  | assert
  | caught
  /-- Rounding down, from the target's own library. -/
  | floor
  deriving Repr, DecidableEq

namespace Helper

def all : List Helper :=
  [get, set, update, slice, iterate, entries, equal, assert, caught, floor]

def name : Helper → String
  | get => "_get"
  | set => "_set"
  | update => "_update"
  | slice => "_slice"
  | iterate => "_iter"
  | entries => "_entries"
  | equal => "_eq"
  | assert => "_assert"
  | caught => "_caught"
  | floor => "Math.floor"

end Helper

/-- The parameter of the function handed to an update. -/
def updatedName : String := "_v"

/-- The parameter of every handler. -/
def caughtName : String := "_e"

/-- The name of the loop with the given number. -/
def labelName (label : Nat) : String := "_loop" ++ toString label

end ScriptLang.Target
