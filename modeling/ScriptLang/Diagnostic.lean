/-!
# Diagnostics

Why a source text is refused. A diagnostic names a line, the lexeme at fault and
a cause; the name of the file joins it only in the message, so that reading a
text cannot depend on what the text is called.
-/

namespace ScriptLang

/-- What a production of the grammar was waiting for. -/
inductive Expectation where
  | expression
  | name
  | newline
  | statement
  | assignableTarget
  /-- A fixed word or punctuation mark. -/
  | lexeme (text : String)
  /-- The statement is only allowed inside a function body. -/
  | insideFunction (word : String)
  /-- The statement is only allowed inside a loop of the same function body. -/
  | insideLoop (word : String)
  deriving Repr, DecidableEq

/-- The reason a text is refused: three lexical faults and the unmet expectation. -/
inductive Cause where
  | unterminatedString
  | unexpectedCharacter (c : Char)
  | malformedNumber
  | expected (what : Expectation)
  deriving Repr, DecidableEq

/-- The first thing wrong with a source text. `near` is the lexeme as written. -/
structure Diagnostic where
  line : Nat
  near : String
  cause : Cause
  deriving Repr, DecidableEq

/-- The digits of `n` in base sixteen, lowercase. -/
def hexDigits (n : Nat) : String :=
  String.ofList (Nat.toDigits 16 n)

/-- A control character as an escape with its code point in braces. -/
def escapeControl (c : Char) : String :=
  "\\u\x7b" ++ hexDigits c.toNat ++ "\x7d"

namespace Expectation

/-- The words after `expected`. -/
def text : Expectation → String
  | expression => "expression"
  | name => "name"
  | newline => "newline"
  | statement => "statement"
  | assignableTarget => "assignable target"
  | lexeme text => "'" ++ text ++ "'"
  | insideFunction word => "'" ++ word ++ "' inside fn"
  | insideLoop word => "'" ++ word ++ "' inside loop"

end Expectation

namespace Cause

/-- NUL has an escape of its own; every other control character shows its code point. -/
def quotedCharacter (c : Char) : String :=
  if c = '\x00' then "'\\0'" else "'" ++ escapeControl c ++ "'"

/-- The cause in words. -/
def text : Cause → String
  | unterminatedString => "unterminated string"
  | unexpectedCharacter c => "unexpected character " ++ quotedCharacter c
  | malformedNumber => "malformed number"
  | expected what => "expected " ++ what.text

end Cause

namespace Diagnostic

/-- The lexeme for display. The end of the text and a line break have no visible
spelling and are named instead. -/
def nearText (d : Diagnostic) : String :=
  match d.near with
  | " " => "end of file"
  | "\n" => "newline"
  | text => "'" ++ text ++ "'"

/-- The whole message, one line of the form `file:line: near: cause`. -/
def message (file : String) (d : Diagnostic) : String :=
  file ++ ":" ++ toString d.line ++ ": " ++ d.nearText ++ ": " ++ d.cause.text

end Diagnostic

end ScriptLang
