import ScriptLang.Text.Quoted

/-!
# JSON documents

The documents a program dump is made of, and their layout over several lines:
two spaces a level, one item a line, and nothing inside empty brackets.
-/

namespace ScriptLang

/-- A JSON document. Objects keep the order of their fields. -/
inductive Json where
  | null
  | nat (n : Nat)
  | str (text : String)
  | arr (items : List Json)
  | obj (fields : List (String × Json))
  deriving Repr

namespace Json

/-- Two spaces for each level. -/
def indentation (level : Nat) : String := String.ofList (List.replicate (2 * level) ' ')

/-- The opening bracket, the items on lines of their own, and the closing bracket. -/
def bracketed (opening closing : String) (level : Nat) (items : List String) : String :=
  if items.isEmpty then opening ++ closing
  else
    opening ++ "\n" ++
      String.intercalate ",\n" (items.map fun item => indentation (level + 1) ++ item) ++
      "\n" ++ indentation level ++ closing

mutual

/-- The document laid out at a level of indentation. -/
def pretty (level : Nat) : Json → String
  | null => "null"
  | nat n => toString n
  | str text => Text.quoted text
  | arr items => bracketed "[" "]" level (prettyItems (level + 1) items)
  | obj fields => bracketed "\x7b" "\x7d" level (prettyFields (level + 1) fields)

/-- The items of an array. -/
def prettyItems (level : Nat) : List Json → List String
  | [] => []
  | item :: rest => item.pretty level :: prettyItems level rest

/-- The fields of an object, each after its name. -/
def prettyFields (level : Nat) : List (String × Json) → List String
  | [] => []
  | (name, value) :: rest =>
    (Text.quoted name ++ ": " ++ value.pretty level) :: prettyFields level rest

end

end Json

end ScriptLang
