import ScriptIndent.Syntax.Node
import ScriptIndent.Text.Alphanumeric

/-!
# ScriptIndent.Token.Kind

The kinds of tokens, and the kind that a leaf of a syntax tree becomes.

A leaf of a known node kind has that kind's token kind.  Any other named leaf
is a keyword if its node kind is a word that reads as one (`this`, `true`),
else an identifier.  An anonymous leaf is a keyword if it is spelled like a
word, else a punctuator.
-/

namespace ScriptIndent

inductive TokenKind where
  | punctuator
  | keyword
  | identifier
  | numeric
  | string
  | template
  | regex
  | comment
  deriving DecidableEq, Repr

namespace TokenKind

/-- The name under which a kind is reported. -/
def name : TokenKind → String
  | .punctuator => "punctuator"
  | .keyword => "keyword"
  | .identifier => "identifier"
  | .numeric => "numeric"
  | .string => "string"
  | .template => "template"
  | .regex => "regex"
  | .comment => "comment"

/-- Node kinds with a token kind of their own. -/
def ofNodeKind? (kind : String) : Option TokenKind :=
  if kind == "number" then some .numeric
  else if kind == "string" then some .string
  else if kind == "regex" then some .regex
  else if Node.isCommentKind kind then some .comment
  else if kind == "optional_chain" then some .punctuator
  else none

/-- Named leaves that read as keywords. -/
def keywordLeaves : List String :=
  ["this", "super", "true", "false", "null", "undefined", "import"]

/-- A letter of the basic alphabet, the low line or the dollar sign. -/
def isWordStart (c : Char) : Bool := c.isAlpha || c == '_' || c == '$'

/-- The rest of a word.  A single line feed may end the text. -/
def isWordRest : List Char → Bool
  | [] | ['\n'] => true
  | c :: rest => (c == '$' || Text.isWord c) && isWordRest rest

/-- A text spelled like a word. -/
def isWordSpelling : List Char → Bool
  | [] => false
  | c :: rest => isWordStart c && isWordRest rest

/-- The token kind of a leaf. -/
def ofLeaf (nodeKind : String) (isNamed : Bool) (value : String) : TokenKind :=
  match ofNodeKind? nodeKind with
  | some kind => kind
  | none =>
    if isNamed then if keywordLeaves.contains nodeKind then .keyword else .identifier
    else if isWordSpelling value.toList then .keyword
    else .punctuator

end TokenKind

end ScriptIndent
