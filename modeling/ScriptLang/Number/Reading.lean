import ScriptLang.Number.Radix
import ScriptLang.Text.Blank

/-!
# Numbers from text

Two readers. A literal drops its underscores first and is a radix integer or a
decimal. Text that is converted while a program runs is trimmed first, takes no
underscores, and knows infinity by its full name only; what is no number reads as
not-a-number.
-/

namespace ScriptLang.Number

/-- The value of a number literal. -/
def literal? (cs : List Char) : Option Float :=
  let digits := cs.filter (· != '_')
  match Numeral.radixPrefix? digits with
  | some (radix, rest) => readRadix? radix rest
  | none => read? digits

/-- Characters of the decimal numbers that text may convert to. -/
def isDecimalChar (c : Char) : Bool :=
  isDecimalDigit c || c == '.' || c == 'e' || c == 'E' || c == '+' || c == '-'

/-- The number that text converts to. -/
def ofText (source : String) : Float :=
  let cs := Text.trimmed source.toList
  match String.ofList cs with
  | "" => 0
  | "Infinity" | "+Infinity" => infinity
  | "-Infinity" => -infinity
  | _ =>
    match Numeral.radixPrefix? cs with
    | some (radix, rest) => (readRadix? radix rest).getD nan
    | none => if cs.all isDecimalChar then (read? cs).getD nan else nan

end ScriptLang.Number
