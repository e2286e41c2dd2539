import ScriptLang.Value.Basic

/-!
# Activation frames

Every call has a frame of its own, holding its parameters, its locals and the
functions at the top of its body. Code sees a chain of frames: its own, then the
ones of the bodies around it, and the frame of the builtins last. A variable
means its binding in the first frame of the chain that has one, and assigning to
it changes that binding alone.
-/

namespace ScriptLang

/-- The bindings of one call. -/
abbrev Frame := List (String × Value)

namespace Frame

/-- The value bound to a name. -/
def find? (name : String) : Frame → Option Value
  | [] => none
  | (x, v) :: rest => if x = name then some v else find? name rest

/-- The frame with a name bound to a value, whether it was bound before or not. -/
def bind (name : String) (value : Value) : Frame → Frame
  | [] => [(name, value)]
  | (x, v) :: rest => if x = name then (name, value) :: rest else (x, v) :: bind name value rest

/-- The frame with several names bound one after the other. -/
def bindAll (f : Frame) (bindings : List (String × Value)) : Frame :=
  bindings.foldl (fun f b => f.bind b.1 b.2) f

/-- The names a frame binds. -/
def names (f : Frame) : List String := f.map Prod.fst

end Frame

/-- All frames of a run. A frame stays as long as a function may refer to it. -/
abbrev Frames := Array Frame

namespace Frames

/-- The frame of a number. -/
def frame (fs : Frames) (id : Nat) : Frame := fs.getD id []

/-- The frames with a name bound to a value in one of them. -/
def bind (fs : Frames) (id : Nat) (name : String) (value : Value) : Frames :=
  fs.modify id (Frame.bind name value)

/-- The value of a variable, seen along a chain of frames. -/
def lookup (fs : Frames) : Env → String → Option Value
  | [], _ => none
  | id :: outer, name =>
    match (fs.frame id).find? name with
    | some value => some value
    | none => lookup fs outer name

/-- The frames after a variable is assigned along a chain of frames, and whether there
was such a variable to assign. -/
def assign (fs : Frames) : Env → String → Value → Frames × Bool
  | [], _, _ => (fs, false)
  | id :: outer, name, value =>
    if ((fs.frame id).find? name).isSome then (fs.bind id name value, true)
    else assign fs outer name value

end Frames

end ScriptLang
