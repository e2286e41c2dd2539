import ScriptLang.Token.Basic

/-!
# Operators

The unary and binary operators, how they are spelled, and how tightly the infix
ones bind. Assignment is an infix operator too: it groups to the right, binds
most loosely, and may carry a binary operator of its own.
-/

namespace ScriptLang

/-- Operators in front of an operand. -/
inductive UnaryOp where
  | not
  | bitNot
  | neg
  deriving Repr, DecidableEq

namespace UnaryOp

def all : List UnaryOp := [not, bitNot, neg]

def spelling : UnaryOp → String
  | not => "!"
  | bitNot => "~"
  | neg => "-"

/-- The operator's name in a program dump. -/
def tag : UnaryOp → String
  | not => "Not"
  | bitNot => "BitNot"
  | neg => "Neg"

end UnaryOp

/-- Operators between two operands. -/
inductive BinaryOp where
  | pow
  | mul
  | div
  | rem
  | floorDiv
  | add
  | sub
  | shl
  | shr
  | ushr
  | bitAnd
  | bitXor
  | bitOr
  | eq
  | ne
  | lt
  | le
  | gt
  | ge
  | and
  | or
  deriving Repr, DecidableEq

namespace BinaryOp

def all : List BinaryOp :=
  [pow, mul, div, rem, floorDiv, add, sub, shl, shr, ushr, bitAnd, bitXor, bitOr,
   eq, ne, lt, le, gt, ge, and, or]

def spelling : BinaryOp → String
  | pow => "**"
  | mul => "*"
  | div => "/"
  | rem => "%"
  | floorDiv => "//"
  | add => "+"
  | sub => "-"
  | shl => "<<"
  | shr => ">>"
  | ushr => ">>>"
  | bitAnd => "&"
  | bitXor => "^"
  | bitOr => "|"
  | eq => "=="
  | ne => "!="
  | lt => "<"
  | le => "<="
  | gt => ">"
  | ge => ">="
  | and => "&&"
  | or => "||"

/-- The operator's name in a program dump. -/
def tag : BinaryOp → String
  | pow => "Pow"
  | mul => "Mul"
  | div => "Div"
  | rem => "Rem"
  | floorDiv => "FloorDiv"
  | add => "Add"
  | sub => "Sub"
  | shl => "Shl"
  | shr => "Shr"
  | ushr => "UShr"
  | bitAnd => "BitAnd"
  | bitXor => "BitXor"
  | bitOr => "BitOr"
  | eq => "Eq"
  | ne => "Ne"
  | lt => "Lt"
  | le => "Le"
  | gt => "Gt"
  | ge => "Ge"
  | and => "And"
  | or => "Or"

/-- How tightly the operator binds; a larger number binds tighter. -/
def precedence : BinaryOp → Nat
  | pow => 11
  | mul | div | rem | floorDiv => 10
  | add | sub => 9
  | shl | shr | ushr => 8
  | bitAnd => 7
  | bitXor => 6
  | bitOr => 5
  | eq | ne | lt | le | gt | ge => 4
  | and => 3
  | or => 2

/-- Only the power operator groups to the right. -/
def groupsRight : BinaryOp → Bool
  | pow => true
  | _ => false

/-- The operator may be joined with an equals sign to update its left operand. -/
def updates : BinaryOp → Bool
  | pow | mul | div | rem | add | sub | shl | shr | ushr | bitAnd | bitXor | bitOr => true
  | _ => false

/-- The operator with the given spelling. -/
def ofSpelling? (text : String) : Option BinaryOp :=
  all.find? fun op => op.spelling == text

end BinaryOp

/-- What may stand between two operands. -/
inductive Connective where
  | binary (op : BinaryOp)
  /-- Assignment; without an operator it is the plain one. -/
  | assign (op : Option BinaryOp)
  deriving Repr, DecidableEq

namespace Connective

def spelling : Connective → String
  | binary op => op.spelling
  | assign none => "="
  | assign (some op) => op.spelling ++ "="

/-- Every connective of the grammar. -/
def all : List Connective :=
  BinaryOp.all.map binary ++ [assign none] ++
    (BinaryOp.all.filter BinaryOp.updates).map fun op => assign (some op)

def precedence : Connective → Nat
  | binary op => op.precedence
  | assign _ => 1

/-- The least precedence allowed in the right operand. A connective that groups
to the left excludes itself there. -/
def rightPrecedence : Connective → Nat
  | binary op => if op.groupsRight then op.precedence else op.precedence + 1
  | assign _ => 1

/-- The connective is an assignment. -/
def isAssign : Connective → Bool
  | binary _ => false
  | assign _ => true

/-- The connective a token spells. -/
def ofToken? (t : Token) : Option Connective :=
  if t.kind = .punct then all.find? fun c => c.spelling == t.text else none

end Connective

/-- The operator a token spells in front of an operand. -/
def UnaryOp.ofToken? (t : Token) : Option UnaryOp :=
  if t.kind = .punct then UnaryOp.all.find? fun op => op.spelling == t.text else none

end ScriptLang
