import ScriptLang.Command.Path

/-!
# File trees

A file tree says what stands at each location: nothing, a directory or a file
with its text. A path is followed part by part from the root or from the working
directory, and every part but the last has to be a directory. Reading, writing
and making a directory differ only in what they ask of the last part. An
operation that fails leaves the tree as it was.

A tree holds files and directories only, no links and no devices. Every file is a text
that may be read and written, every directory may be searched and changed, and names
that differ in case are different names. What is said about invocations is said about
trees of this kind.
-/

namespace ScriptLang

/-- Why an operation on files fails. -/
inductive Fault where
  | missing
  | exists
  | notDirectory
  | isDirectory
  | nameTooLong
  /-- A reason outside the rules of this module, with its text. -/
  | other (text : String)
  deriving Repr, DecidableEq

/-- The reason in the words of the operating system, with its number. -/
def Fault.message : Fault → String
  | missing => "No such file or directory (os error 2)"
  | «exists» => "File exists (os error 17)"
  | notDirectory => "Not a directory (os error 20)"
  | isDirectory => "Is a directory (os error 21)"
  | nameTooLong => "File name too long (os error 36)"
  | other text => text

/-- The names that lead from the root to a place; the root is `[]`. -/
abbrev Location := List String

/-- What stands at a location. A file is well-formed text, whoever asks for it. -/
inductive Entry where
  | directory
  | file (text : String)
  deriving Repr, DecidableEq

/-- Files and directories, and the directory in which relative paths begin. -/
structure Tree where
  workingDirectory : Location
  entries : List (Location × Entry)
  deriving Repr, DecidableEq

/-- Where a path leads: to a directory itself, or to a name in a directory,
which may not be taken yet. -/
inductive Destination where
  | directory (location : Location)
  | inside (directory : Location) (name : String)
  deriving Repr, DecidableEq

namespace Tree

/-- What stands at a location. The root is always a directory. -/
def entry? (t : Tree) : Location → Option Entry
  | [] => some .directory
  | location => t.entries.lookup location

/-- The tree with an entry at a location, in place of the one that was there. -/
def put (t : Tree) (location : Location) (entry : Entry) : Tree :=
  { t with entries := (location, entry) :: t.entries.filter (·.1 ≠ location) }

/-- The most bytes in a name. -/
def maxNameSize : Nat := 255

/-- The most bytes in a path. -/
def maxPathSize : Nat := 4095

/-- Follow names through directories. Going up from the root stays there. -/
def walk (t : Tree) (start : Location) : List String → Except Fault Location
  | [] => .ok start
  | "." :: rest => t.walk start rest
  | ".." :: rest => t.walk start.dropLast rest
  | name :: rest =>
    if name.utf8ByteSize > maxNameSize then .error .nameTooLong
    else
      match t.entry? (start ++ [name]) with
      | none => .error .missing
      | some (.file _) => .error .notDirectory
      | some .directory => t.walk (start ++ [name]) rest

/-- Follow a path up to its last part. -/
def locate (t : Tree) (p : Path) : Except Fault Destination := do
  if p.text.utf8ByteSize > maxPathSize then throw .nameTooLong
  if p.text = "" then throw .missing
  let start := if p.isAbsolute then [] else t.workingDirectory
  let directory ← t.walk start p.parts.dropLast
  match p.parts.getLast? with
  | none | some "." => return .directory directory
  | some ".." => return .directory directory.dropLast
  | some name =>
    if name.utf8ByteSize > maxNameSize then throw .nameTooLong
    return .inside directory name

/-- The text of a file. -/
def read (t : Tree) (p : Path) : Except Fault String := do
  match ← t.locate p with
  | .directory _ => throw .isDirectory
  | .inside directory name =>
    match t.entry? (directory ++ [name]) with
    | none => throw .missing
    | some .directory => throw .isDirectory
    | some (.file text) => if p.endsInSlash then throw .notDirectory else return text

/-- The tree after a file was written, which is created if it is not there. -/
def write (t : Tree) (p : Path) (text : String) : Except Fault Tree := do
  match ← t.locate p with
  | .directory _ => throw .isDirectory
  | .inside directory name =>
    if p.endsInSlash ∨ t.entry? (directory ++ [name]) = some .directory then throw .isDirectory
    return t.put (directory ++ [name]) (.file text)

/-- The path leads to a directory. -/
def isDirectory (t : Tree) (p : Path) : Bool :=
  match t.locate p with
  | .error _ => false
  | .ok (.directory _) => true
  | .ok (.inside directory name) => t.entry? (directory ++ [name]) == some .directory

/-- The tree after a directory was made in one that is there. -/
def makeDirectory (t : Tree) (p : Path) : Except Fault Tree := do
  match ← t.locate p with
  | .directory _ => throw .exists
  | .inside directory name =>
    if (t.entry? (directory ++ [name])).isSome then throw .exists
    return t.put (directory ++ [name]) .directory

/-- Make the first of some directories, each inside the next. One that is there
already is good; where the way to it is missing, the next one is made before it.
Directories made on the way stay when a later step fails. -/
def makeEach (t : Tree) : List Path → Tree × Option Fault
  | [] => (t, none)
  | p :: around =>
    match t.makeDirectory p with
    | .ok made => (made, none)
    | .error .missing =>
      match t.makeEach around with
      | (t, some fault) => (t, some fault)
      | (t, none) =>
        match t.makeDirectory p with
        | .ok made => (made, none)
        | .error fault => (t, if t.isDirectory p then none else some fault)
    | .error fault => (t, if t.isDirectory p then none else some fault)

/-- Make a directory, and those around it that are missing. -/
def makeDirectories (t : Tree) (p : Path) : Tree × Option Fault := t.makeEach p.ancestors

/-- The files at and below a location, each with its way from there and its text. -/
def filesBelow (t : Tree) (location : Location) : List (Location × String) :=
  t.entries.filterMap fun (place, entry) =>
    match entry with
    | .file text => if location <+: place then some (place.drop location.length, text) else none
    | .directory => none

end Tree

end ScriptLang
