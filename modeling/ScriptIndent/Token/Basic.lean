import ScriptIndent.Text.Quoted
import ScriptIndent.Token.Kind

/-!
# ScriptIndent.Token.Basic

Tokens of a source text, and the tests on tokens that the rules use.

A code token knows its place in the stream of code tokens.  Comments form a
stream of their own and have no such place.
-/

namespace ScriptIndent

/-- A token of a source text.  Two tokens are the same when all their parts
are. -/
structure Token where
  start : Offset
  stop : Offset
  kind : TokenKind
  value : String
  /-- The line of the first character, counted from 1. -/
  line : Nat
  /-- The distance from the start of the line, in bytes. -/
  column : Int
  /-- The line of the last character. -/
  endLine : Nat
  /-- The place among the code tokens; a comment has none. -/
  index : Option Nat
  deriving DecidableEq, Repr

namespace Token

def isComment (t : Token) : Bool := t.kind == .comment

/-- How a token is named in messages: its value and its place. -/
def describe (t : Token) : String :=
  s!"Token({Text.quoted t.value}@{t.line}:{t.column})"

/-! ## tests -/

/-- No test at all. -/
def isAny (_ : Token) : Bool := true

/-- A punctuator with a given spelling. -/
def isPunctuator (value : String) (t : Token) : Bool :=
  t.kind == .punctuator && t.value == value

def isOpeningParen : Token → Bool := isPunctuator "("
def isClosingParen : Token → Bool := isPunctuator ")"
def isOpeningBracket : Token → Bool := isPunctuator "["
def isClosingBracket : Token → Bool := isPunctuator "]"
def isOpeningBrace : Token → Bool := isPunctuator "\x7b"
def isClosingBrace : Token → Bool := isPunctuator "\x7d"
def isSemicolon : Token → Bool := isPunctuator ";"
def isArrow : Token → Bool := isPunctuator "=>"
def isOptionalChain : Token → Bool := isPunctuator "?."

def isNotOpeningParen (t : Token) : Bool := !t.isOpeningParen
def isNotClosingParen (t : Token) : Bool := !t.isClosingParen

/-- A brace of either direction. -/
def isBrace (t : Token) : Bool := t.isOpeningBrace || t.isClosingBrace

end Token

end ScriptIndent
