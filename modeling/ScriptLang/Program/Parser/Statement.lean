import ScriptLang.Program.Parser.Expression

/-!
# Reading statements

A block is a run of statements, each ended by a line break, up to a word that
closes or divides the enclosing statement. Where a statement stands decides
whether it may return or jump: a function body allows returns and hides the
loops around the function.

`parse` reads a whole text. The nesting bound it passes grows with the number of
tokens, since every production but a fixed number of them takes one.
-/

namespace ScriptLang

namespace Parser

/-- What encloses the current statement within its function body. -/
structure Place where
  inFunction : Bool := false
  inLoop : Bool := false
  deriving Repr, DecidableEq

/-- The lexemes that end a block. They are left for the enclosing statement. -/
def blockEnds : List String := ["|", "catch", "else", "elif", "end"]

/-- The block ends at the current token. -/
def atBlockEnd : Parser Bool := do
  let t ← peek
  return t.kind = .eof || blockEnds.any t.is

/-- One or more names with commas between them. -/
def names : Nat → Parser (List String)
  | 0 => tooDeep
  | fuel + 1 => do
    let first ← name
    if ← eat "," then return first :: (← names fuel)
    return [first]

/-- The parameters of a function, with their parentheses. -/
def parameters (fuel : Nat) : Parser (List String) := do
  expect "("
  if ← eat ")" then return []
  let params ← names fuel
  expect ")"
  return params

/-- An expression, an expression handed to a named function after a colon, or a
function followed by its arguments. -/
def expressionStatement (fuel : Nat) : Parser Stmt := do
  let e ← expression fuel 0
  if ← eat ":" then
    let callee ← name
    let more ← if (← peek).startsArgument then arguments fuel else pure []
    return .expr (.call (.ident callee) (e :: more))
  else if (← peek).startsArgument then
    return .expr (.call e (← arguments fuel))
  else return .expr e

/-- `return` with an optional value. -/
def returnStatement (fuel : Nat) (place : Place) : Parser Stmt := do
  unless place.inFunction do refuse (.insideFunction "return")
  let _ ← advance
  if ← atNewline then return .ret .null
  return .ret (← expression fuel 0)

/-- `break` or `continue`. -/
def jump (word : String) (place : Place) (s : Stmt) : Parser Stmt := do
  unless place.inLoop do refuse (.insideLoop word)
  let _ ← advance
  return s

/-- The variables of a loop, up to the colon before what it ranges over. -/
def loopHeader : Parser LoopHeader := do
  let first ← name
  if ← eat "," then
    let second ← name
    expect ":"
    return .keyed first second
  else
    expect ":"
    return .single first

mutual

/-- Statements up to the end of the block. -/
def block : Nat → Place → Parser (List Stmt)
  | 0, _ => tooDeep
  | fuel + 1, place => do
    if ← atBlockEnd then return []
    let s ← statement fuel place
    expectNewline
    return s :: (← block fuel place)

/-- One statement, without the line break after it. -/
def statement : Nat → Place → Parser Stmt
  | 0, _ => tooDeep
  | fuel + 1, place => do
    let t ← peek
    if t.kind ≠ .word then expressionStatement fuel
    else match t.text with
    | "if" =>
      let _ ← advance
      let test ← expression fuel 0
      expectNewline
      let body ← block fuel place
      return .cond test body (← alternative fuel place)
    | "while" =>
      let _ ← advance
      let test ← expression fuel 0
      expectNewline
      return .whileLoop test (← loopBody fuel place)
    | "dowhile" =>
      let _ ← advance
      let test ← expression fuel 0
      expectNewline
      return .doWhile test (← loopBody fuel place)
    | "for" =>
      let _ ← advance
      let header ← loopHeader
      let iterable ← expression fuel 0
      expectNewline
      return .forEach header iterable (← loopBody fuel place)
    | "case" =>
      let _ ← advance
      let subject ← expression fuel 0
      expectNewline
      return .select subject (← arms fuel place)
    | "fn" =>
      let _ ← advance
      let name ← name
      let params ← parameters fuel
      expectNewline
      let body ← block fuel ⟨true, false⟩
      expect "end"
      return .func name params body
    | "return" => returnStatement fuel place
    | "outer" =>
      let _ ← advance
      return .outer (← names fuel)
    | "break" => jump "break" place .break
    | "continue" => jump "continue" place .continue
    | "assert" =>
      let line := (← advance).line
      return .assert (← expression fuel 0) line
    | "throw" =>
      let _ ← advance
      return .throw (← expression fuel 0)
    | "try" =>
      let _ ← advance
      expectNewline
      let body ← block fuel place
      expect "catch"
      let name ← name
      expectNewline
      let handler ← block fuel place
      expect "end"
      return .attempt body name handler
    | _ => expressionStatement fuel

/-- The body of a loop, with its `end`. -/
def loopBody : Nat → Place → Parser (List Stmt)
  | 0, _ => tooDeep
  | fuel + 1, place => do
    let body ← block fuel { place with inLoop := true }
    expect "end"
    return body

/-- What follows the body of a condition. One `end` closes the whole chain. -/
def alternative : Nat → Place → Parser Alternative
  | 0, _ => tooDeep
  | fuel + 1, place => do
    if ← eat "elif" then
      let test ← expression fuel 0
      expectNewline
      let body ← block fuel place
      return .elif test body (← alternative fuel place)
    else if ← eat "else" then
      expectNewline
      let body ← block fuel place
      expect "end"
      return .otherwise body
    else
      expect "end"
      return .none

/-- The arms of a selection with its `end`. Nothing follows an `else` arm. -/
def arms : Nat → Place → Parser (List Arm)
  | 0, _ => tooDeep
  | fuel + 1, place => do
    if ← eat "|" then
      let patterns ← arguments fuel
      expectNewline
      let body ← block fuel place
      return .mk patterns body :: (← arms fuel place)
    else if ← eat "else" then
      expectNewline
      let body ← block fuel place
      expect "end"
      return [.mk [] body]
    else
      expect "end"
      return []

end

/-- A whole program: its statements, and nothing after them. -/
def program (fuel : Nat) : Parser (List Stmt) := do
  skipNewline
  let body ← block fuel {}
  unless (← peek).kind = .eof do refuse .statement
  return body

end Parser

/-- The cursor before the first token, or the fault that precedes it. -/
def Lexed.cursor (l : Lexed) : Except Diagnostic Cursor :=
  match l.tokens, l.fault with
  | t :: rest, fault => .ok ⟨t, rest, fault⟩
  | [], some d => .error d
  | [], none => .ok ⟨Token.endOfText 1, [], none⟩

/-- A nesting bound that suffices for a number of tokens. -/
def Lexed.nesting (l : Lexed) : Nat := 16 * (l.tokens.length + 1)

/-- The program that a sequence of tokens spells, or the first diagnostic. -/
def Lexed.parse (l : Lexed) : Except Diagnostic (List Stmt) := do
  let start ← l.cursor
  match (Parser.program l.nesting).run start with
  | .ok (body, _) => .ok body
  | .error (.refused d) => .error d
  | .error .tooDeep => .error ⟨start.current.line, start.current.text, .expected .statement⟩

/-- The program that a source text spells, or the first diagnostic. -/
def parse (options : Options) (source : String) : Except Diagnostic (List Stmt) :=
  (lex options.dollarIdentifiers source).parse

end ScriptLang
