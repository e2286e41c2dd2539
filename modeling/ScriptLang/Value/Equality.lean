import ScriptLang.Value.Basic

/-!
# Equality of values

Two equalities. `strictEq` compares containers and functions by identity; it
finds the keys of maps and the arms of selections. `deepEq` compares containers
by their contents, entries of maps in any order, and is what `==` means.

Contents are followed as deep as values without cycles can nest. Two values that contain
themselves may be compared without end, and a program that does so gets no answer. Here
`deepEq` is a function, and such a comparison is cut off at that depth, where identity
decides. Nothing is said about a program by the answer for such values.
-/

namespace ScriptLang

namespace Value

/-- Identity for references, value for everything else. Not-a-number equals nothing. -/
def strictEq : Value → Value → Bool
  | null, null => true
  | bool a, bool b => a == b
  | num a, num b => a == b
  | str a, str b => a == b
  | list a, list b => a == b
  | map a, map b => a == b
  | closure a, closure b => a == b
  | builtin a, builtin b => a == b
  | _, _ => false

end Value

/-- The value under a key. -/
def findEntry (key : Value) : List (Value × Value) → Option Value
  | [] => none
  | (k, v) :: rest => if k.strictEq key then some v else findEntry key rest

namespace Heap

/-- Equality of contents, down to a depth. Only values that contain themselves are compared
below it, by identity. -/
def deepEqWithin (h : Heap) : Nat → Value → Value → Bool
  | 0, a, b => a.strictEq b
  | depth + 1, a, b =>
    a.strictEq b ||
      match a, b with
      | .list i, .list j =>
        let xs := (h.items i).toList
        let ys := (h.items j).toList
        xs.length == ys.length && (xs.zip ys).all fun p => h.deepEqWithin depth p.1 p.2
      | .map i, .map j =>
        let xs := h.entries i
        let ys := h.entries j
        xs.length == ys.length && xs.all fun p =>
          match findEntry p.1 ys with
          | some v => h.deepEqWithin depth p.2 v
          | none => false
      | _, _ => false

/-- Equality of contents. -/
def deepEq (h : Heap) (a b : Value) : Bool := h.deepEqWithin (h.size + 1) a b

end Heap

end ScriptLang
