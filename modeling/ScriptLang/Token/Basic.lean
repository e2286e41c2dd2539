/-!
# Tokens

A token is a lexeme with its kind and the line it starts on. Words and
punctuation are compared by spelling; the end of the text is a token of its own,
so that a reader always has a current token to look at.
-/

namespace ScriptLang

namespace Token

/-- The class of a lexeme. -/
inductive Kind where
  | word
  | number
  | quote
  | punct
  | newline
  | eof
  deriving Repr, DecidableEq

end Token

/-- One lexical item. `line` counts from one. -/
structure Token where
  kind : Token.Kind
  text : String
  line : Nat
  deriving Repr, DecidableEq

namespace Token

/-- The text of the end-of-text token. No lexeme is a lone space. -/
def eofText : String := " "

/-- The text of every newline token, however many lines and comments it covers. -/
def newlineText : String := "\n"

/-- The token that stands after the last lexeme. -/
def endOfText (line : Nat) : Token := ⟨.eof, eofText, line⟩

/-- A word or punctuation mark spelled exactly `text`. A string or number token
never is, whatever its characters are. -/
def is (t : Token) (text : String) : Bool :=
  (t.kind = .word || t.kind = .punct) && t.text = text

/-- Words that begin or end a statement and can never be a name. -/
def keywords : List String :=
  ["assert", "break", "case", "catch", "continue", "dowhile", "elif", "else", "end", "fn",
   "for", "if", "outer", "return", "throw", "try", "while"]

/-- A word reserved by the grammar. -/
def isKeyword (word : String) : Bool := keywords.contains word

/-- A word that may name a variable: it is not a keyword. -/
def isName (t : Token) : Bool := t.kind = .word && !isKeyword t.text

end Token

end ScriptLang
