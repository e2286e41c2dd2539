import ScriptLang.Value.Basic

/-!
# Progressions of numbers

The numbers from a start by equal steps up to, but not including, a stop. Each is
the one before it plus the step in doubles. Where adding the step changes nothing
the progression never reaches its stop; it has no last number and no list of
numbers either.
-/

namespace ScriptLang

/-- A progression from its next number on. -/
structure Progression where
  next : Float
  stop : Float
  step : Float

namespace Progression

/-- The next number lies before the stop, in the direction of the step. -/
def goesOn (p : Progression) : Bool :=
  (p.step > 0 && p.next < p.stop) || (p.step < 0 && p.next > p.stop)

/-- The progression without its next number. -/
def advance (p : Progression) : Progression := { p with next := p.next + p.step }

/-- Adding the step changes nothing. -/
def stalls (p : Progression) : Bool := p.advance.next == p.next

/-- The numbers after those in `found`, of which there are at most `count`; none if
the progression never ends. -/
def collect : Nat → Progression → Array Value → Option (Array Value)
  | 0, _, _ => none
  | count + 1, p, found =>
    if p.goesOn then
      if p.stalls then none else collect count p.advance (found.push (.num p.next))
    else some found

/-- More numbers than any progression that ends can have: between two numbers that
the step tells apart there are fewer. -/
def bound : Nat := Nat.pow 2 62

/-- All numbers of the progression, if it ends. -/
def items? (p : Progression) : Option (Array Value) := collect bound p #[]

end Progression

end ScriptLang
