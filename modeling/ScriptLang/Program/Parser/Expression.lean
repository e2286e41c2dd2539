import ScriptLang.Program.Parser.Cursor

/-!
# Reading expressions

Operands are read by recursive descent, the connectives between them by
precedence: `expression` reads what binds at least as tightly as its bound, and
`climb` goes on from a left operand as long as the next connective does. A left
operand that cannot be assigned to is refused at the assignment sign.
-/

namespace ScriptLang

namespace Connective

/-- The expression a connective makes of its operands. -/
def join : Connective → Expr → Expr → Expr
  | binary op, lhs, rhs => .binary op lhs rhs
  | assign op, lhs, rhs => .assign op lhs rhs

end Connective

namespace Token

/-- The token can begin an expression that is an argument of a command. -/
def startsArgument (t : Token) : Bool :=
  match t.kind with
  | .number | .quote => true
  | .word => !isKeyword t.text
  | .punct => ["(", "[", "\x7b", "!", "~", "-"].contains t.text
  | .newline | .eof => false

end Token

namespace Parser

/-- A member name as the string that indexes the container. -/
def memberIndex (name : String) : Expr := .str ("\"" ++ name ++ "\"")

mutual

/-- An expression whose connectives bind at least as tightly as `least`. -/
def expression : Nat → Nat → Parser Expr
  | 0, _ => tooDeep
  | fuel + 1, least => do
    let lhs ← operand fuel
    climb fuel least lhs

/-- Goes on after a left operand. -/
def climb : Nat → Nat → Expr → Parser Expr
  | 0, _, _ => tooDeep
  | fuel + 1, least, lhs => do
    match Connective.ofToken? (← peek) with
    | none => return lhs
    | some c =>
      if c.precedence < least then return lhs
      if c.isAssign && !lhs.isAssignable then refuse .assignableTarget
      let _ ← advance
      let rhs ← expression fuel c.rightPrecedence
      climb fuel least (c.join lhs rhs)

/-- Operators in front, then a term with its suffixes. -/
def operand : Nat → Parser Expr
  | 0 => tooDeep
  | fuel + 1 => do
    match UnaryOp.ofToken? (← peek) with
    | some op =>
      let _ ← advance
      return .unary op (← operand fuel)
    | none =>
      let e ← term fuel
      suffixes fuel e

/-- Calls, member accesses and subscripts after a term. -/
def suffixes : Nat → Expr → Parser Expr
  | 0, _ => tooDeep
  | fuel + 1, e => do
    if ← eat "(" then
      skipNewline
      let args ← elements fuel ")"
      suffixes fuel (.call e args)
    else if ← eat "." then
      let name ← memberName
      suffixes fuel (.index e (memberIndex name))
    else if ← eat "[" then
      let e ← subscript fuel e
      suffixes fuel e
    else return e

/-- After an opening bracket: an index, or the bounds of a slice, of which either
may be omitted. -/
def subscript : Nat → Expr → Parser Expr
  | 0, _ => tooDeep
  | fuel + 1, target => do
    let start ← if ← atLexeme ":" then pure .omitted else expression fuel 0
    if ← eat ":" then
      let stop ← if ← atLexeme "]" then pure .omitted else expression fuel 0
      expect "]"
      return .slice target start stop
    else
      expect "]"
      return .index target start

/-- A literal, a name, a list, a map, or an expression in parentheses. -/
def term : Nat → Parser Expr
  | 0 => tooDeep
  | fuel + 1 => do
    let t ← peek
    if t.kind = .quote then return .str (← advance).text
    if t.kind = .number then return .number (← advance).text
    if t.isName then return .ident (← advance).text
    if ← eat "(" then
      skipNewline
      let e ← expression fuel 0
      skipNewline
      expect ")"
      return e
    else if ← eat "[" then
      skipNewline
      return .list (← elements fuel "]")
    else if ← eat "\x7b" then
      skipNewline
      return .map (← entries fuel)
    else refuse .expression

/-- Expressions with commas between them up to `close`, which is taken. A comma
may follow the last one. -/
def elements : Nat → String → Parser (List Expr)
  | 0, _ => tooDeep
  | fuel + 1, close => do
    if ← eat close then return []
    let e ← expression fuel 0
    skipNewline
    if ← eat "," then
      skipNewline
      return e :: (← elements fuel close)
    else
      expect close
      return [e]

/-- The entries of a map up to the closing brace, which is taken. -/
def entries : Nat → Parser (List (Expr × Expr))
  | 0 => tooDeep
  | fuel + 1 => do
    if ← eat "\x7d" then return []
    let key ← expression fuel 0
    expect ":"
    let value ← expression fuel 0
    skipNewline
    if ← eat "," then
      skipNewline
      return (key, value) :: (← entries fuel)
    else
      expect "\x7d"
      return [(key, value)]

end

/-- One or more expressions with commas between them. -/
def arguments : Nat → Parser (List Expr)
  | 0 => tooDeep
  | fuel + 1 => do
    let e ← expression fuel 0
    if ← eat "," then return e :: (← arguments fuel)
    return [e]

end Parser

end ScriptLang
