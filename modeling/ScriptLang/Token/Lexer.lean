import ScriptLang.Diagnostic
import ScriptLang.Token.Basic
import ScriptLang.Token.Numeral

/-!
# Splitting text into tokens

Blanks separate lexemes and vanish; line feeds, blanks and comments in a row
make one newline token. `lexeme` looks at the first character of a lexeme and
says how many further characters belong to it, so no character is taken twice
and none is lost: the lexeme and the rest are what `take` and `drop` leave.

The text is read up to the first lexical fault. The tokens before it are kept,
because whoever reads them may find an earlier error of another kind.
-/

namespace ScriptLang

/-- The tokens of a text. Without a fault the last one is the end-of-text token. -/
structure Lexed where
  tokens : List Token
  fault : Option Diagnostic
  deriving Repr, DecidableEq

namespace Lexer

/-- Characters that separate lexemes on one line. -/
def isBlank (c : Char) : Bool :=
  c == ' ' || c == '\t' || c == '\r' || c == '\x0c'

/-- Decimal digits. -/
def isDecimal (c : Char) : Bool := '0' ≤ c && c ≤ '9'

/-- Unaccented Latin letters. -/
def isLetter (c : Char) : Bool := ('a' ≤ c && c ≤ 'z') || ('A' ≤ c && c ≤ 'Z')

/-- Control characters, which no lexeme may start with. -/
def isControl (c : Char) : Bool := c.toNat < 0x20 || (0x7f ≤ c.toNat && c.toNat ≤ 0x9f)

/-- Characters that begin a word. The dollar sign counts in the dollar dialect only. -/
def startsWord (dollar : Bool) (c : Char) : Bool :=
  isLetter c || c == '_' || (dollar && c == '$')

/-- Characters that go on with a word. -/
def continuesWord (dollar : Bool) (c : Char) : Bool :=
  startsWord dollar c || isDecimal c

/-- Characters of a digit run: digits and their separator. -/
def inDigits (c : Char) : Bool := isDecimal c || c == '_'

/-- Characters after a radix prefix. Digits out of range are taken too, so that
the whole malformed literal is reported. -/
def inRadixDigits (c : Char) : Bool := isLetter c || inDigits c

/-- The operators of more than one character, longer ones first. -/
def operators : List String :=
  [">>>=", "**=", "<<=", ">>=", ">>>", "**", "==", "!=", "<=", ">=", "&&", "||", "<<", ">>",
   "+=", "-=", "*=", "/=", "%=", "&=", "|=", "^=", "//"]

/-- How many characters go on with a run of newlines, blanks and comments. A
comment runs up to the next line feed. -/
def newlineRun (comment : Bool) : List Char → Nat
  | [] => 0
  | c :: cs =>
    if c == '\n' then newlineRun false cs + 1
    else if comment then newlineRun true cs + 1
    else if isBlank c then newlineRun false cs + 1
    else if c == '#' then newlineRun true cs + 1
    else 0

/-- How far a string goes after its opening quote, and whether it is closed. A
backslash takes the next character with it, so an escaped quote closes nothing. -/
def stringRun (quote : Char) : List Char → Bool × Nat
  | [] => (false, 0)
  | '\\' :: [] => (false, 1)
  | '\\' :: _ :: cs =>
    let (closed, n) := stringRun quote cs
    (closed, n + 2)
  | c :: cs =>
    if c == '\n' then (false, 0)
    else if c == quote then (true, 1)
    else
      let (closed, n) := stringRun quote cs
      (closed, n + 1)

/-- How many characters go on with a number that starts with `first`. A point
counts only before a digit; otherwise it is member access. -/
def numberRun (first : Char) (rest : List Char) : Nat :=
  match rest with
  | c :: digits =>
    if first == '0' && (Numeral.radixLetter? c).isSome then
      (digits.takeWhile inRadixDigits).length + 1
    else
      let whole := (rest.takeWhile inDigits).length
      match rest.dropWhile inDigits with
      | '.' :: d :: fraction =>
        if isDecimal d then whole + 2 + (fraction.takeWhile inDigits).length else whole
      | _ => whole
  | [] => 0

/-- The longest operator that begins the text. -/
def operator? (cs : List Char) : Option String :=
  operators.find? fun op => op.toList.isPrefixOf cs

/-- What stands at the start of a lexeme: an item of some kind or a fault. `more`
counts the characters after the first that belong to it. -/
inductive Lexeme where
  | item (kind : Token.Kind) (more : Nat)
  | fault (cause : Cause) (more : Nat)
  deriving Repr, DecidableEq

/-- The lexeme that begins with `c` and goes on in `rest`. -/
def lexeme (dollar : Bool) (c : Char) (rest : List Char) : Lexeme :=
  if c == '\n' || c == '#' then
    .item .newline (newlineRun (c == '#') rest)
  else if c == '"' || c == '\'' then
    let (closed, n) := stringRun c rest
    if closed then .item .quote n else .fault .unterminatedString n
  else if isDecimal c then
    let n := numberRun c rest
    if Numeral.isLiteral (c :: rest.take n) then .item .number n else .fault .malformedNumber n
  else if startsWord dollar c then
    .item .word (rest.takeWhile (continuesWord dollar)).length
  else
    match operator? (c :: rest) with
    | some op => .item .punct (op.length - 1)
    | none => if isControl c then .fault (.unexpectedCharacter c) 0 else .item .punct 0

/-- The text a token carries: its slice of the source, except that every newline
run reads the same. -/
def tokenText (kind : Token.Kind) (slice : List Char) : String :=
  if kind = .newline then Token.newlineText else String.ofList slice

/-- The text a fault shows: its slice of the source, with a control character escaped. -/
def faultText (cause : Cause) (slice : List Char) : String :=
  match cause with
  | .unexpectedCharacter c => escapeControl c
  | _ => String.ofList slice

/-- The tokens of `cs`, whose first character stands on `line`. -/
def tokensFrom (dollar : Bool) (line : Nat) (cs : List Char) : Lexed :=
  match _h : cs.dropWhile isBlank with
  | [] => ⟨[Token.endOfText line], none⟩
  | c :: rest =>
    match lexeme dollar c rest with
    | .fault cause more => ⟨[], some ⟨line, faultText cause (c :: rest.take more), cause⟩⟩
    | .item kind more =>
      let slice := c :: rest.take more
      let after := tokensFrom dollar (line + slice.count '\n') (rest.drop more)
      ⟨⟨kind, tokenText kind slice, line⟩ :: after.tokens, after.fault⟩
termination_by cs.length
decreasing_by
  have := (List.dropWhile_suffix isBlank (l := cs)).length_le
  simp only [_h, List.length_cons, List.length_drop] at this ⊢
  omega

end Lexer

/-- The tokens of a source text. -/
def lex (dollar : Bool) (source : String) : Lexed :=
  Lexer.tokensFrom dollar 1 source.toList

end ScriptLang
