import ScriptLang.Program.Basic
import ScriptLang.Token.Lexer

/-!
# Reading tokens

The cursor of the parser: the current token and those after it. A production
looks at the current token only. A lexical fault lies beyond the last token and
is met when the cursor has to move onto it, so a syntax error at an earlier token
is reported first.

Productions recurse on a bound for their nesting. Running out of it is kept
apart from refusing the text: it says nothing about the text.
-/

namespace ScriptLang

/-- A position in the tokens of a text. -/
structure Cursor where
  current : Token
  rest : List Token
  fault : Option Diagnostic
  deriving Repr

/-- Why a production did not answer: the text is refused, or the nesting bound
was too small. -/
inductive Stop where
  | refused (d : Diagnostic)
  | tooDeep
  deriving Repr, DecidableEq

/-- A production: it reads tokens from the cursor and answers. -/
abbrev Parser (α : Type) := StateT Cursor (Except Stop) α

namespace Parser

/-- The current token. -/
def peek : Parser Token := do return (← get).current

/-- The production needs more nesting than it was given. -/
def tooDeep {α : Type} : Parser α := throw .tooDeep

/-- Refuse the text at the current token. -/
def refuse {α : Type} (what : Expectation) : Parser α := do
  let t ← peek
  throw (.refused ⟨t.line, t.text, .expected what⟩)

/-- Take the current token and move to the next one. The end of the text is
never left. -/
def advance : Parser Token := do
  let c ← get
  match c.rest, c.fault with
  | next :: rest, _ => set { c with current := next, rest := rest }
  | [], some d => throw (.refused d)
  | [], none => pure ()
  return c.current

/-- The current token is the word or punctuation mark `text`. -/
def atLexeme (text : String) : Parser Bool := do return (← peek).is text

/-- Take the current token if it is spelled `text`. -/
def eat (text : String) : Parser Bool := do
  if ← atLexeme text then
    let _ ← advance
    return true
  return false

/-- Take the current token, which has to be spelled `text`. -/
def expect (text : String) : Parser Unit := do
  unless ← eat text do refuse (.lexeme text)

/-- The current token is a line break. -/
def atNewline : Parser Bool := do return (← peek).kind = .newline

/-- Take a line break. -/
def expectNewline : Parser Unit := do
  if ← atNewline then
    let _ ← advance
  else refuse .newline

/-- Take a line break if there is one. Two never stand in a row. -/
def skipNewline : Parser Unit := do
  if ← atNewline then
    let _ ← advance

/-- Take a word that may name a variable. -/
def name : Parser String := do
  if (← peek).isName then return (← advance).text
  refuse .name

/-- Take any word. After a point keywords are names too. -/
def memberName : Parser String := do
  if (← peek).kind = .word then return (← advance).text
  refuse .name

end Parser

end ScriptLang
