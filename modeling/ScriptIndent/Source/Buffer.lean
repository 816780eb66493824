import ScriptIndent.Search
import ScriptIndent.Syntax.Node
import ScriptIndent.Text.Utf8

/-!
# ScriptIndent.Source.Buffer

A source text as bytes, and its division into lines.

A line ends behind its line feed, so there is one line more than there are
line feeds.  Lines are counted from 1.  An offset belongs to the last line that
starts at or before it; an offset before the text belongs to line 0.
-/

namespace ScriptIndent

/-- The raw text of a source. -/
abbrev Bytes := Array UInt8

namespace Bytes

def lineFeed : UInt8 := 0x0A
def carriageReturn : UInt8 := 0x0D
def space : UInt8 := 0x20
def tab : UInt8 := 0x09

/-- A byte that ends a line. -/
def isLineEnd (b : UInt8) : Bool := b == lineFeed || b == carriageReturn

/-- A byte that indents a line. -/
def isIndent (b : UInt8) : Bool := b == space || b == tab

/-- The index that an offset denotes: a negative one counts from the end, and
one outside the text is moved to the nearer end. -/
def index (bytes : Bytes) (o : Offset) : Nat :=
  if o < 0 then (o + bytes.size).toNat else min o.toNat bytes.size

/-- The bytes between two offsets, none if they are out of order. -/
def slice (bytes : Bytes) (start stop : Offset) : List UInt8 :=
  (bytes.extract (bytes.index start) (bytes.index stop)).toList

/-- The text between two offsets. -/
def text (bytes : Bytes) (start stop : Offset) : String :=
  Utf8.decode (bytes.slice start stop)

/-- The offsets at which lines start, given that one starts at `next`. -/
def lineStartsFrom (next : Offset) : List UInt8 → List Offset
  | [] => []
  | b :: rest =>
    if b == lineFeed then next :: lineStartsFrom (next + 1) rest else lineStartsFrom (next + 1) rest

/-- The offsets at which lines start: 0, and behind every line feed. -/
def lineStarts (bytes : Bytes) : Array Offset := (0 :: lineStartsFrom 1 bytes.toList).toArray

end Bytes

/-- A text with its line starts. -/
structure Buffer where
  bytes : Bytes
  starts : Array Offset
  starts_eq : starts = bytes.lineStarts

namespace Buffer

/-- The text that some bytes hold. -/
def ofBytes (bytes : Bytes) : Buffer := ⟨bytes, bytes.lineStarts, rfl⟩

/-- The text between two offsets. -/
def text (b : Buffer) (start stop : Offset) : String := b.bytes.text start stop

def lineCount (b : Buffer) : Nat := b.starts.size

/-- The line to which an offset belongs. -/
def lineOf (b : Buffer) (o : Offset) : Nat :=
  partitionPoint b.starts.size fun i => b.starts[i]?.any (· ≤ o)

/-- The offset at which a line starts.  Line 0, to which no offset of the text
belongs, is taken to start with the last line. -/
def lineStart (b : Buffer) (line : Nat) : Offset :=
  if line = 0 then b.starts.back?.getD 0 else b.starts[line - 1]?.getD 0

/-- The bytes of a line without the bytes that end it. -/
def lineBytes (b : Buffer) (line : Nat) : List UInt8 :=
  let start := b.lineStart line
  let stop := b.starts[line]?.getD b.bytes.size
  ((b.bytes.slice start stop).reverse.dropWhile Bytes.isLineEnd).reverse

/-- The spaces and tabs that indent a line. -/
def indentation (b : Buffer) (line : Nat) : List UInt8 :=
  (b.lineBytes line).takeWhile Bytes.isIndent

end Buffer

end ScriptIndent
