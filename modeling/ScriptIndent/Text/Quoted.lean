import ScriptIndent.Text.Printable

/-!
# ScriptIndent.Text.Quoted

A text as a quoted literal, on one line and with nothing in it that does not
show.

Single quotes enclose it, unless it holds a single quote and no double one;
then double quotes do.  The enclosing quote and the backslash are escaped by a
backslash, tab, line feed and carriage return by their letter, and any other
character that does not show by its code in two, four or eight digits.
-/

namespace ScriptIndent.Text

/-- The last `n` hexadecimal digits of a number, in small letters. -/
def hexDigits : Nat → Nat → List Char
  | 0, _ => []
  | n + 1, code => hexDigits n (code / 16) ++ [Nat.digitChar (code % 16)]

/-- The escape of a character by its code. -/
def codeEscape (c : Char) : List Char :=
  if c.toNat < 0x100 then '\\' :: 'x' :: hexDigits 2 c.toNat
  else if c.toNat < 0x10000 then '\\' :: 'u' :: hexDigits 4 c.toNat
  else '\\' :: 'U' :: hexDigits 8 c.toNat

/-- A character inside a literal that `quote` encloses. -/
def quotedChar (quote c : Char) : List Char :=
  if c == quote || c == '\\' then ['\\', c]
  else if c == '\t' then ['\\', 't']
  else if c == '\n' then ['\\', 'n']
  else if c == '\r' then ['\\', 'r']
  else if isPrintable c then [c]
  else codeEscape c

/-- The quote that encloses a text. -/
def quoteFor (s : List Char) : Char :=
  if s.contains '\'' && !s.contains '"' then '"' else '\''

/-- A text as a quoted literal. -/
def quoted (s : String) : String :=
  let quote := quoteFor s.toList
  String.ofList (quote :: s.toList.flatMap (quotedChar quote) ++ [quote])

end ScriptIndent.Text
