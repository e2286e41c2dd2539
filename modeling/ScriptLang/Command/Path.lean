/-!
# Paths

A path is kept as it was written, since messages show it that way. Here it is
only taken apart and put together; what it leads to depends on the files there
are. Parts are separated by slashes. A part that is empty or `.` leads nowhere,
so the last part that counts may be followed by more slashes and points.
-/

namespace ScriptLang

/-- A path as written. -/
structure Path where
  text : String
  deriving Repr, DecidableEq

namespace Path

/-- The texts between slashes; `n` slashes separate `n + 1` of them. -/
def splitSlashes : List Char → List (List Char)
  | [] => [[]]
  | '/' :: rest => [] :: splitSlashes rest
  | c :: rest =>
    match splitSlashes rest with
    | [] => [[c]]
    | part :: parts => (c :: part) :: parts

/-- The path starts at the root. -/
def isAbsolute (p : Path) : Bool := p.text.toList.head? == some '/'

/-- The path ends in a slash, and so can only mean a directory. -/
def endsInSlash (p : Path) : Bool := p.text.toList.getLast? == some '/'

/-- The parts that are not empty. -/
def parts (p : Path) : List String :=
  ((splitSlashes p.text.toList).filter (· ≠ [])).map String.ofList

/-- The parts that lead somewhere: down into a directory, or up by `..`. -/
def steps (p : Path) : List String := p.parts.filter (· ≠ ".")

/-- The name a path ends in, if it does not end by going up. -/
def lastName? (p : Path) : Option String := p.steps.getLast?.filter (· ≠ "..")

/-- A name without its extension: what stands before its last point, unless that
is nothing. -/
def stemOf (name : String) : String :=
  match name.toList.reverse.dropWhile (· ≠ '.') with
  | [] | ['.'] => name
  | _ :: stem => String.ofList stem.reverse

/-- The last name of a path without its extension. -/
def stem? (p : Path) : Option String := p.lastName?.map stemOf

/-- A path inside a directory. An absolute path does not depend on the directory. -/
def join (directory inner : Path) : Path :=
  if inner.isAbsolute then inner
  else if directory.text = "" ∨ directory.endsInSlash then ⟨directory.text ++ inner.text⟩
  else ⟨directory.text ++ "/" ++ inner.text⟩

/-- The non-empty beginnings of a list other than the whole, longest first. -/
def beginnings (steps : List String) : List (List String) :=
  (List.range (steps.length - 1)).reverse.map fun n => steps.take (n + 1)

/-- The path and the directories it passes through, innermost first. -/
def ancestors (p : Path) : List Path :=
  p :: (beginnings p.steps).map fun steps =>
    ⟨(if p.isAbsolute then "/" else "") ++ "/".intercalate steps⟩

/-- The module for an input in a directory of modules. An input without a name
of its own gives its whole text. -/
def moduleIn (directory input : Path) : Path :=
  directory.join ⟨input.stem?.getD input.text ++ ".mjs"⟩

/-- Where the module for an input goes: with a single input to `output` itself,
with several into `output` as a directory. -/
def moduleFor (output : Path) (single : Bool) (input : Path) : Path :=
  if single then output else moduleIn output input

/-- The dump next to the module at `target`. -/
def dumpBeside (target : Path) : Path := ⟨target.text ++ ".ast.json"⟩

end Path

end ScriptLang
