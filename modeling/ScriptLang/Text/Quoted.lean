/-!
# Quoted text

Text between double quotes as JSON writes it: a quote, a backslash and the
control characters below the space are escaped, the usual ones by a letter and
the others by four hexadecimal digits. Everything else stands for itself.
-/

namespace ScriptLang.Text

/-- The hexadecimal digits of a number below 256, two of them. -/
def twoHexDigits (n : Nat) : List Char :=
  [Nat.digitChar (n / 16), Nat.digitChar (n % 16)]

/-- The characters that stand for `c` between quotes. -/
def quotedChar (c : Char) : List Char :=
  if c == '"' then ['\\', '"']
  else if c == '\\' then ['\\', '\\']
  else if c == '\n' then ['\\', 'n']
  else if c == '\r' then ['\\', 'r']
  else if c == '\t' then ['\\', 't']
  else if c == '\x08' then ['\\', 'b']
  else if c == '\x0c' then ['\\', 'f']
  else if c.toNat < 0x20 then ['\\', 'u', '0', '0'] ++ twoHexDigits c.toNat
  else [c]

/-- The text in double quotes. -/
def quoted (text : String) : String :=
  String.ofList ('"' :: text.toList.flatMap quotedChar ++ ['"'])

end ScriptLang.Text
