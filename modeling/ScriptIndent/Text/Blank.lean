/-!
# ScriptIndent.Text.Blank

White space: the characters of the Unicode category `Zs`, and those whose
bidirectional class is white space or a separator of paragraphs or segments.
-/

namespace ScriptIndent.Text

/-- The code points of white space. -/
def blanks : List Nat := [
  0x9, 0xA, 0xB, 0xC, 0xD, 0x1C, 0x1D, 0x1E, 0x1F, 0x20, 0x85, 0xA0, 0x1680, 0x2000, 0x2001,
  0x2002, 0x2003, 0x2004, 0x2005, 0x2006, 0x2007, 0x2008, 0x2009, 0x200A, 0x2028, 0x2029, 0x202F,
  0x205F, 0x3000]

/-- White space, in any script. -/
def isBlank (c : Char) : Bool := blanks.contains c.toNat

/-- A text without the white space at its ends. -/
def strip (s : List Char) : List Char :=
  ((s.dropWhile isBlank).reverse.dropWhile isBlank).reverse

end ScriptIndent.Text
