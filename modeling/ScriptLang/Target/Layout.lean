import ScriptLang.Target.Code

/-!
# Writing emitted code

Expressions are written on one line. Statements take lines of their own, four
spaces deeper inside every pair of braces.
-/

namespace ScriptLang.Target

mutual

/-- The text of an expression. -/
def Code.text : Code → String
  | .var name => name
  | .literal text => text
  | .undefined => "undefined"
  | .group inner => "(" ++ inner.text ++ ")"
  | .unary op operand => op.spelling ++ operand.text
  | .binary op lhs rhs => lhs.text ++ " " ++ op.spelling ++ " " ++ rhs.text
  | .assign op target value =>
    target.text ++ " " ++ (Connective.assign op).spelling ++ " " ++ value.text
  | .call callee args => callee.text ++ "(" ++ String.intercalate ", " (textsOf args) ++ ")"
  | .helper h args => h.name ++ "(" ++ String.intercalate ", " (textsOf args) ++ ")"
  | .updater op value =>
    "(" ++ updatedName ++ ") => " ++ updatedName ++ " " ++ op.spelling ++ " " ++ value.text
  | .array items => "[" ++ String.intercalate ", " (textsOf items) ++ "]"
  | .newMap [] => "new Map()"
  | .newMap entries => "new Map([" ++ String.intercalate ", " (entryTexts entries) ++ "])"

/-- The texts of expressions one after the other. -/
def textsOf : List Code → List String
  | [] => []
  | e :: rest => e.text :: textsOf rest

/-- The entries of a map, each as a pair. -/
def entryTexts : List (Code × Code) → List String
  | [] => []
  | (key, value) :: rest => ("[" ++ key.text ++ ", " ++ value.text ++ "]") :: entryTexts rest

end

/-- One line of emitted code: how deep it is indented, and its text. -/
structure Line where
  depth : Nat
  text : String
  deriving Repr, DecidableEq

namespace Line

/-- The line with its indentation and line feed. -/
def render (l : Line) : String :=
  String.ofList (List.replicate (4 * l.depth) ' ') ++ l.text ++ "\n"

end Line

/-- A jump's keyword. -/
def Jump.keyword : Jump → String
  | .break => "break"
  | .continue => "continue"

/-- The parameter list of a function, opening its body. -/
def functionHead (name : String) (params : List String) : String :=
  "function " ++ name ++ "(" ++ String.intercalate ", " params ++ ") \x7b"

/-- What a loop assigns in each round and ranges over. -/
def loopRange (header : LoopHeader) (iterable : Code) : String :=
  match header with
  | .single name => name ++ " of " ++ (Code.helper .iterate [iterable]).text
  | .keyed key value =>
    "[" ++ key ++ ", " ++ value ++ "] of " ++ (Code.helper .entries [iterable]).text

/-- The patterns of an arm. The last one opens the braces of the body. -/
def patternLines (depth : Nat) : List Code → List Line
  | [] => [⟨depth, "default: \x7b"⟩]
  | [p] => [⟨depth, "case " ++ p.text ++ ": \x7b"⟩]
  | p :: rest => ⟨depth, "case " ++ p.text ++ ":"⟩ :: patternLines depth rest

mutual

/-- The lines of a statement. -/
def Item.lines (depth : Nat) : Item → List Line
  | .guard param =>
    [⟨depth, "if (" ++ param ++ " === undefined) " ++ param ++ " = null;"⟩]
  | .declare name => [⟨depth, "let " ++ name ++ " = null;"⟩]
  | .run e => [⟨depth, e.text ++ ";"⟩]
  | .cond test body rest =>
    ⟨depth, "if (" ++ test.text ++ ") \x7b"⟩ ::
      (blockLines (depth + 1) body ++ rest.lines depth)
  | .whileLoop label test body =>
    ⟨depth, labelName label ++ ": while (" ++ test.text ++ ") \x7b"⟩ ::
      (blockLines (depth + 1) body ++ [⟨depth, "\x7d"⟩])
  | .doWhile label body test =>
    ⟨depth, labelName label ++ ": do \x7b"⟩ ::
      (blockLines (depth + 1) body ++ [⟨depth, "\x7d while (" ++ test.text ++ ");"⟩])
  | .forOf label header iterable body =>
    ⟨depth, labelName label ++ ": for (" ++ loopRange header iterable ++ ") \x7b"⟩ ::
      (blockLines (depth + 1) body ++ [⟨depth, "\x7d"⟩])
  | .switch subject arms =>
    ⟨depth, "switch (" ++ subject.text ++ ") \x7b"⟩ ::
      (armLines depth arms ++ [⟨depth, "\x7d"⟩])
  | .function name params body =>
    ⟨depth, functionHead name params⟩ :: (blockLines (depth + 1) body ++ [⟨depth, "\x7d"⟩])
  | .assignFunction name params body =>
    ⟨depth, name ++ " = " ++ functionHead name params⟩ ::
      (blockLines (depth + 1) body ++ [⟨depth, "\x7d;"⟩])
  | .ret value => [⟨depth, "return " ++ value.text ++ ";"⟩]
  | .jump keyword (some label) => [⟨depth, keyword.keyword ++ " " ++ labelName label ++ ";"⟩]
  | .jump keyword none => [⟨depth, keyword.keyword ++ ";"⟩]
  | .throw value => [⟨depth, "throw " ++ value.text ++ ";"⟩]
  | .tryCatch body name handler =>
    ⟨depth, "try \x7b"⟩ ::
      (blockLines (depth + 1) body ++
        ⟨depth, "\x7d catch (" ++ caughtName ++ ") \x7b"⟩ ::
        ⟨depth + 1, name ++ " = " ++ (Code.helper .caught [.literal caughtName]).text ++ ";"⟩ ::
        (blockLines (depth + 1) handler ++ [⟨depth, "\x7d"⟩]))

/-- The lines after the body of a condition. Chained conditions are not indented. -/
def Branch.lines (depth : Nat) : Branch → List Line
  | .none => [⟨depth, "\x7d"⟩]
  | .otherwise body =>
    ⟨depth, "\x7d else \x7b"⟩ :: (blockLines (depth + 1) body ++ [⟨depth, "\x7d"⟩])
  | .elseIf test body rest =>
    ⟨depth, "\x7d else if (" ++ test.text ++ ") \x7b"⟩ ::
      (blockLines (depth + 1) body ++ rest.lines depth)

/-- The arms of a switch. Each ends in a `break` of its own, so that none falls
into the next. -/
def armLines (depth : Nat) : List Case → List Line
  | [] => []
  | .mk patterns body :: rest =>
    patternLines depth patterns ++ blockLines (depth + 1) body ++
      ⟨depth + 1, "break;"⟩ :: ⟨depth, "\x7d"⟩ :: armLines depth rest

/-- The lines of statements one after the other. -/
def blockLines (depth : Nat) : List Item → List Line
  | [] => []
  | item :: rest => item.lines depth ++ blockLines depth rest

end

/-- The text of emitted code. -/
def render (body : List Item) : String :=
  String.join ((blockLines 0 body).map Line.render)

end ScriptLang.Target
