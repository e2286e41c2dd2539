import ScriptLang.Text.Quoted
import ScriptLang.Value.Basic

/-!
# Values as text

A string by itself is written bare; inside a container it is quoted, so that the
text of a container of data reads as the literal it is. Contents are written as
deep as values without cycles can nest.

A value that contains itself has no text: a program that asks for it gets no answer,
since its contents are followed without end. Here every value gets a text, so that
`text` is a function, and one that contains itself is cut off at that depth. Nothing
is said about a program by the text of such a value.
-/

namespace ScriptLang

namespace Heap

/-- The text of a value inside a container, down to a depth. Containers below it are written
as empty ones, which happens only to values that contain themselves. -/
def nestedTextWithin (h : Heap) : Nat → Value → String
  | _, .null => "null"
  | _, .bool b => if b then "true" else "false"
  | _, .num x => Number.text x
  | _, .str text => Text.quoted text
  | _, .closure id =>
    "<fn " ++ ((h.closures[id]?).map fun c => c.function.name).getD "" ++ ">"
  | _, .builtin b => "<fn " ++ b.name ++ ">"
  | 0, .list _ => "[]"
  | 0, .map _ => "\x7b\x7d"
  | depth + 1, .list id =>
    "[" ++ String.intercalate ", " ((h.items id).toList.map (h.nestedTextWithin depth)) ++ "]"
  | depth + 1, .map id =>
    "\x7b" ++
      String.intercalate ", " ((h.entries id).map fun (key, value) =>
        h.nestedTextWithin depth key ++ ": " ++ h.nestedTextWithin depth value) ++
      "\x7d"

/-- The text of a value with strings quoted. -/
def nestedText (h : Heap) (v : Value) : String := h.nestedTextWithin (h.size + 1) v

/-- The text of a value as it is printed. -/
def text (h : Heap) (v : Value) : String :=
  match v with
  | .str text => text
  | v => h.nestedText v

end Heap

end ScriptLang
