import ScriptIndent.Source.Buffer
import ScriptIndent.Token.Basic

/-!
# ScriptIndent.Source.Stream

The tokens of a syntax tree.

Strings and regular expressions are single tokens whatever their children, and
so is every leaf that is not empty.  A template literal gives one token for
each stretch of literal text, the brackets of the substitutions
included, and the tokens of the substituted expressions between them.

The tree is first cut into pieces, which know their kind and range.  Tokens are
pieces with their text and place worked out; code tokens are numbered in the
order of the pieces.
-/

namespace ScriptIndent

/-- A piece of the source that becomes a token. -/
structure Piece where
  kind : TokenKind
  start : Offset
  stop : Offset
  deriving DecidableEq, Repr

namespace Piece

def isComment (p : Piece) : Bool := p.kind == .comment

end Piece

namespace Node

/-- Nodes that are one token, whatever their children. -/
def isAtomicKind (kind : String) : Bool := kind == "string" || kind == "regex"

/-- The brackets of a substitution, which belong to the literal text. -/
def isSubstitutionBracket (kind : String) : Bool := kind == "$\x7b" || kind == "\x7d"

mutual

/-- The pieces of a tree in document order, comments among them. -/
def pieces (b : Buffer) : Node → List Piece
  | ⟨kind, isNamed, _, _, _, start, stop, children⟩ =>
    if start = stop then []
    else if isCommentKind kind then [⟨.comment, start, stop⟩]
    else if kind == "template_string" then templatePieces b start stop children
    else if isAtomicKind kind || children.isEmpty then
      [⟨.ofLeaf kind isNamed (b.text start stop), start, stop⟩]
    else piecesOfAll b children

/-- The pieces of a list of trees. -/
def piecesOfAll (b : Buffer) : List Node → List Piece
  | [] => []
  | n :: rest => pieces b n ++ piecesOfAll b rest

/-- The pieces of the rest of a template literal that ends at `stop`, its
literal text going on at `position`. -/
def templatePieces (b : Buffer) (position stop : Offset) : List Node → List Piece
  | [] => [⟨.template, position, stop⟩]
  | ⟨kind, _, _, _, _, start, stop', inner⟩ :: rest =>
    if kind == "template_substitution" then
      ⟨.template, position, start + 2⟩
        :: (substitutedPieces b inner ++ templatePieces b (stop' - 1) stop rest)
    else templatePieces b position stop rest

/-- The pieces of what a substitution puts in. -/
def substitutedPieces (b : Buffer) : List Node → List Piece
  | [] => []
  | n :: rest =>
    (if isSubstitutionBracket n.kind then [] else pieces b n) ++ substitutedPieces b rest

end

end Node

namespace Buffer

/-- The token that a piece becomes. -/
def token (b : Buffer) (p : Piece) (index : Option Nat) : Token where
  start := p.start
  stop := p.stop
  kind := p.kind
  value := b.text p.start p.stop
  line := b.lineOf p.start
  column := p.start - b.lineStart (b.lineOf p.start)
  endLine := b.lineOf (max p.start (p.stop - 1))
  index := index

/-- The code tokens among some pieces, numbered in order. -/
def codeTokens (b : Buffer) (ps : List Piece) : List Token :=
  (ps.filter (!·.isComment)).zipIdx.map fun (p, i) => b.token p (some i)

/-- The comments among some pieces. -/
def commentTokens (b : Buffer) (ps : List Piece) : List Token :=
  (ps.filter (·.isComment)).map fun p => b.token p none

end Buffer

end ScriptIndent
