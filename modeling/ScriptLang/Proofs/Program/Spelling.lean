import ScriptLang.Proofs.Program.Print

/-!
# Spellings of expressions

Which pieces are written for an expression, as a relation, so that whoever writes
expressions down may choose where parentheses go. An operand is a name, a literal,
something with a suffix, or anything in parentheses. Between operands stands at
most one connective: where two of them would compete for an operand, one side has
to be in parentheses. Only the value of an assignment need not be an operand, since
nothing binds more loosely.
-/

namespace ScriptLang

open Piece

mutual

/-- The pieces spell the expression. -/
inductive Spells (dollar : Bool) : List Piece → Expr → Prop where
  | operand {ps : List Piece} {e : Expr} : SpellsOperand dollar ps e → Spells dollar ps e
  | unary {ps : List Piece} {e : Expr} (op : UnaryOp) :
      SpellsOperand dollar ps e → Spells dollar (mark op.spelling :: ps) (.unary op e)
  | binary {ls rs : List Piece} {lhs rhs : Expr} (op : BinaryOp) :
      SpellsOperand dollar ls lhs → SpellsOperand dollar rs rhs →
      Spells dollar (ls ++ mark op.spelling :: rs) (.binary op lhs rhs)
  | assign {ts vs : List Piece} {target value : Expr} (op : Option BinaryOp) :
      (∀ b ∈ op, BinaryOp.updates b = true) → target.isAssignable = true →
      SpellsOperand dollar ts target → Spells dollar vs value →
      Spells dollar (ts ++ mark (Connective.assign op).spelling :: vs) (.assign op target value)

/-- The pieces spell the expression and hold together as an operand. -/
inductive SpellsOperand (dollar : Bool) : List Piece → Expr → Prop where
  | group {ps : List Piece} {e : Expr} : Spells dollar ps e → SpellsOperand dollar (grouped ps) e
  | ident {name : String} : IsName dollar name → SpellsOperand dollar [word name] (.ident name)
  | number (text : String) : SpellsOperand dollar [(.number, text)] (.number text)
  | str (text : String) : SpellsOperand dollar [(.quote, text)] (.str text)
  | call {cs as : List Piece} {callee : Expr} {args : List Expr} :
      SpellsOperand dollar cs callee → SpellsList dollar as args →
      SpellsOperand dollar (cs ++ mark "(" :: (as ++ [mark ")"])) (.call callee args)
  | index {ts is : List Piece} {target index : Expr} :
      SpellsOperand dollar ts target → Spells dollar is index →
      SpellsOperand dollar (ts ++ mark "[" :: (is ++ [mark "]"])) (.index target index)
  | slice {ts as bs : List Piece} {target start stop : Expr} :
      SpellsOperand dollar ts target → SpellsBound dollar as start → SpellsBound dollar bs stop →
      SpellsOperand dollar (ts ++ mark "[" :: (as ++ mark ":" :: (bs ++ [mark "]"])))
        (.slice target start stop)
  | map {ps : List Piece} {entries : List (Expr × Expr)} :
      SpellsEntries dollar ps entries →
      SpellsOperand dollar (mark "\x7b" :: (ps ++ [mark "\x7d"])) (.map entries)
  | list {ps : List Piece} {items : List Expr} : SpellsList dollar ps items →
      SpellsOperand dollar (mark "[" :: (ps ++ [mark "]"])) (.list items)

/-- The pieces spell the bound of a slice, which may be left out. -/
inductive SpellsBound (dollar : Bool) : List Piece → Expr → Prop where
  | omitted : SpellsBound dollar [] .omitted
  | expr {ps : List Piece} {e : Expr} : Spells dollar ps e → SpellsBound dollar ps e

/-- The pieces spell the expressions, with commas between them. -/
inductive SpellsList (dollar : Bool) : List Piece → List Expr → Prop where
  | nil : SpellsList dollar [] []
  | one {ps : List Piece} {e : Expr} : Spells dollar ps e → SpellsList dollar ps [e]
  | cons {ps qs : List Piece} {e e' : Expr} {rest : List Expr} : Spells dollar ps e →
      SpellsList dollar qs (e' :: rest) →
      SpellsList dollar (ps ++ mark "," :: qs) (e :: e' :: rest)

/-- The pieces spell the entries of a map, with commas between them. -/
inductive SpellsEntries (dollar : Bool) : List Piece → List (Expr × Expr) → Prop where
  | nil : SpellsEntries dollar [] []
  | one {ks vs : List Piece} {key value : Expr} : Spells dollar ks key → Spells dollar vs value →
      SpellsEntries dollar (ks ++ mark ":" :: vs) [(key, value)]
  | cons {ks vs qs : List Piece} {key value : Expr} {entry : Expr × Expr}
      {rest : List (Expr × Expr)} : Spells dollar ks key → Spells dollar vs value →
      SpellsEntries dollar qs (entry :: rest) →
      SpellsEntries dollar (ks ++ mark ":" :: (vs ++ mark "," :: qs))
        ((key, value) :: entry :: rest)

end

end ScriptLang
