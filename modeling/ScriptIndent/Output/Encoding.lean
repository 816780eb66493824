import ScriptIndent.Text.Utf8

/-!
# ScriptIndent.Output.Encoding

Printing on a stream that cannot take every character.

A text that the stream can take is printed as it is.  Otherwise the symbols of
the program are replaced by plain ones, and if that is not enough every
character that the stream cannot take by a question mark.  The text is followed
by an end, for which nothing is substituted.
-/

namespace ScriptIndent

/-- An encoding of a stream. -/
inductive Encoding where
  | ascii
  | latin1
  | utf8
  deriving DecidableEq, Repr

namespace Encoding

def name : Encoding → String
  | .ascii => "ascii"
  | .latin1 => "latin-1"
  | .utf8 => "utf-8"

/-- A character that a stream can take. -/
def takes : Encoding → Char → Bool
  | .ascii, c => c.toNat < 0x80
  | .latin1, c => c.toNat < 0x100
  | .utf8, _ => true

/-- A text that a stream can take. -/
def takesAll (e : Encoding) (s : List Char) : Bool := s.all e.takes

/-- The symbols of the program, with their plain spellings. -/
def plainSpellings : List (Char × List Char) :=
  [('→', ['-', '>']), ('…', ['.', '.', '.']), ('•', ['*']), ('✓', ['[', 'O', 'K', ']']),
    ('✗', ['[', 'X', ']']), ('·', ['.'])]

/-- A text with a spelling in every place of a symbol. -/
def replaceSymbol (s : List Char) (entry : Char × List Char) : List Char :=
  s.flatMap fun c => if c == entry.1 then entry.2 else [c]

/-- A text with plain spellings for the symbols of the program, which are
replaced one after the other. -/
def plain (s : List Char) : List Char := plainSpellings.foldl replaceSymbol s

/-- The bytes of a character that a stream can take. -/
def bytes : Encoding → Char → List UInt8
  | .utf8, c => (Utf8.encode (String.singleton c)).toList
  | _, c => [UInt8.ofNat c.toNat]

/-- The bytes of a text, with question marks for what a stream cannot take. -/
def encode (e : Encoding) (s : List Char) : List UInt8 :=
  s.flatMap fun c => if e.takes c then e.bytes c else [0x3F]

/-- The text that such bytes stand for. -/
def decode : Encoding → List UInt8 → List Char
  | .utf8, bytes => Utf8.decodeFrom none bytes
  | _, bytes => bytes.map fun b => Char.ofNat b.toNat

/-- A text with question marks for what a stream cannot take, as it comes back
from the bytes. -/
def forced (e : Encoding) (s : List Char) : List Char := e.decode (e.encode s)

end Encoding

/-- What has reached a stream, and whether the last attempt failed. -/
structure Printed where
  text : List Char
  failed : Bool
  deriving DecidableEq, Repr

namespace Printed

/-- Try to print a text and an end behind what has reached a stream.  The text
goes first, so it stays there if the end fails. -/
def attempt (e : Encoding) (written text stop : List Char) : Printed :=
  if e.takesAll text then
    if e.takesAll stop then ⟨written ++ text ++ stop, false⟩ else ⟨written ++ text, true⟩
  else ⟨written, true⟩

/-- Try again with another text if the last attempt failed. -/
def orElse (p : Printed) (e : Encoding) (text stop : List Char) : Printed :=
  if p.failed then attempt e p.text text stop else p

end Printed

/-- Print a text and an end on a stream. -/
def print (e : Encoding) (text stop : List Char) : Printed :=
  ((Printed.attempt e [] text stop).orElse e (Encoding.plain text) stop).orElse e
    (e.forced (Encoding.plain text)) stop

/-- The line that a text makes on a stream. -/
def printedLine (e : Encoding) (text : String) : String :=
  String.ofList (print e text.toList ['\n']).text

end ScriptIndent
