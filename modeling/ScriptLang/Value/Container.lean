import ScriptLang.Value.Equality

/-!
# Lists, maps and strings as containers

Reading, writing, slicing and visiting. Lists and strings are indexed by whole
numbers from zero; a string is a sequence of characters and never changes. A
list grows only at its end, one item at a time. A map takes any value as a key
and keeps its entries in the order in which the keys were first set.
-/

namespace ScriptLang

namespace Value

/-- The value as an index below `size`. -/
def index? (v : Value) (size : Nat) : Option Nat :=
  match v with
  | num x =>
    match Number.integer? x with
    | some (.ofNat i) => if i < size then some i else none
    | _ => none
  | _ => none

/-- One bound of a slice of a sequence of `size` items. A negative bound counts
from the end, and every bound is brought into range. -/
def sliceBound (v : Value) (size whenOmitted : Nat) : Except RuntimeError Nat :=
  match v with
  | null => .ok whenOmitted
  | num x =>
    match Number.exact x with
    | .nan => .ok 0
    | .infinite negative => .ok (if negative then 0 else size)
    | .finite negative m e =>
      let n := Number.truncated m e
      .ok (if negative && n != 0 then size - n else min n size)
  | v => .error (v.misused .sliceWith)

/-- Both bounds of a slice, the first one not above the second. -/
def sliceBounds (start stop : Value) (size : Nat) : Except RuntimeError (Nat × Nat) := do
  let low ← start.sliceBound size 0
  let high ← stop.sliceBound size size
  return (low, max low high)

end Value

/-- The entries with one more, or with a new value under a key they have. -/
def setEntry (key value : Value) : List (Value × Value) → List (Value × Value)
  | [] => [(key, value)]
  | (k, v) :: rest =>
    if k.strictEq key then (k, value) :: rest else (k, v) :: setEntry key value rest

/-- The items with a new value at an index, which may be their number. -/
def setItem (i : Nat) (value : Value) (items : Array Value) : Array Value :=
  if i < items.size then items.setIfInBounds i value else items.push value

/-- Where the element of a container is stored. -/
inductive Place where
  | item (list i : Nat)
  | entry (map : Nat) (key : Value)
  deriving Repr, DecidableEq

/-- A string of one character. -/
def ofChar (c : Char) : Value := .str (String.ofList [c])

namespace Heap

/-- `container[key]`. A missing key or an index out of range reads as null. -/
def get (h : Heap) (container key : Value) : Except RuntimeError Value :=
  match container with
  | .map id => .ok ((findEntry key (h.entries id)).getD .null)
  | .list id =>
    let items := h.items id
    .ok (((key.index? items.size).bind (items[·]?)).getD .null)
  | .str text =>
    let cs := text.toList
    .ok ((((key.index? cs.length).bind (cs[·]?)).map ofChar).getD .null)
  | v => .error (v.misused .index)

/-- Where `container[key]` is stored: the end of a list is a place too. -/
def place (h : Heap) (container key : Value) : Except RuntimeError Place :=
  match container with
  | .map id => .ok (.entry id key)
  | .list id =>
    match key.index? ((h.items id).size + 1) with
    | some i => .ok (.item id i)
    | none => .error (container.misused .assignPastEnd)
  | v => .error (v.misused .assignInto)

/-- The heap with a value stored at a place. -/
def write (h : Heap) (p : Place) (value : Value) : Heap :=
  match p with
  | .entry id key => { h with maps := h.maps.modify id (setEntry key value) }
  | .item id i => { h with lists := h.lists.modify id (setItem i value) }

/-- `container[key] = value`. -/
def set (h : Heap) (container key value : Value) : Except RuntimeError Heap :=
  (h.place container key).map fun p => h.write p value

/-- The number of items, characters or entries. -/
def length (h : Heap) (container : Value) : Except RuntimeError Nat :=
  match container with
  | .str text => .ok text.length
  | .list id => .ok (h.items id).size
  | .map id => .ok (h.entries id).length
  | v => .error (v.misused .takeLength)

/-- `container[start:stop]`, a new value. -/
def slice (h : Heap) (container start stop : Value) : Except RuntimeError Product :=
  match container with
  | .str text => do
    let cs := text.toList
    let (low, high) ← start.sliceBounds stop cs.length
    return .value (.str (String.ofList ((cs.drop low).take (high - low))))
  | .list id => do
    let items := h.items id
    let (low, high) ← start.sliceBounds stop items.size
    return .list (items.extract low high)
  | v => .error (v.misused .slice)

/-- What a loop over the value visits: items, characters or keys. -/
def visited (h : Heap) (container : Value) : Except RuntimeError (List Value) :=
  match container with
  | .list id => .ok (h.items id).toList
  | .str text => .ok (text.toList.map ofChar)
  | .map id => .ok ((h.entries id).map Prod.fst)
  | v => .error (v.misused .iterate)

/-- What a loop with keys visits. The keys of a sequence are its indices. -/
def visitedEntries (h : Heap) (container : Value) :
    Except RuntimeError (List (Value × Value)) :=
  match container with
  | .map id => .ok (h.entries id)
  | v => do
    let items ← h.visited v
    return items.zipIdx.map fun (item, i) => (.num (Float.ofNat i), item)

end Heap

end ScriptLang
