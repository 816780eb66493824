import ScriptIndent.Source.Stream

/-!
# ScriptIndent.Source.Basic

A source: a text with its syntax tree, its code tokens and its comments.

A source may come from a host document.  It then lists the blocks of script in
it and the level at which the statements of each begin.
-/

namespace ScriptIndent

/-- A stretch of script in a host document. -/
structure ScriptBlock where
  start : Offset
  stop : Offset
  /-- The level at which its top-level statements begin. -/
  baseLevel : Int
  deriving DecidableEq, Repr

/-- A parsed source text.  The token streams are those of the tree. -/
structure Source where
  buffer : Buffer
  root : Node
  path : Option String
  blocks : List ScriptBlock
  tokens : Array Token
  comments : List Token
  tokens_eq : tokens = (buffer.codeTokens (root.pieces buffer)).toArray
  comments_eq : comments = buffer.commentTokens (root.pieces buffer)

namespace Source

/-- The source of a text and its syntax tree. -/
def ofTree (bytes : Bytes) (root : Node) (path : Option String) (blocks : List ScriptBlock) :
    Source :=
  let buffer := Buffer.ofBytes bytes
  let pieces := root.pieces buffer
  { buffer, root, path, blocks
    tokens := (buffer.codeTokens pieces).toArray
    comments := buffer.commentTokens pieces
    tokens_eq := rfl
    comments_eq := rfl }

/-- The line on which a node starts. -/
def lineOfNode (s : Source) (n : Node) : Nat := s.buffer.lineOf n.start

/-- The level at which a statement that starts with a token begins: that of
the first block that holds the token, and 0 outside all blocks. -/
def baseLevel (s : Source) (t : Token) : Int :=
  match s.blocks.find? fun b => b.start ≤ t.start && t.start < b.stop with
  | some b => b.baseLevel
  | none => 0

/-! ## physical lines -/

/-- Cut a list of tokens into groups: a token opens a new group when it starts
behind the last line, `reached`, on which a token of the current group or an
earlier one ends. -/
def groupsFrom (reached : Nat) (current : List Token) : List Token → List (List Token)
  | [] => if current.isEmpty then [] else [current.reverse]
  | t :: rest =>
    if !current.isEmpty && reached < t.line then
      current.reverse :: groupsFrom (max reached t.endLine) [t] rest
    else groupsFrom (max reached t.endLine) (t :: current) rest

/-- All tokens and comments by their start; of two that start together the
token goes first. -/
def merged (s : Source) : List Token :=
  (s.tokens.toList ++ s.comments).mergeSort fun a b => a.start ≤ b.start

/-- The tokens and comments of each physical line.  What follows a token of
several lines on its last line stays with the line on which it began. -/
def lines (s : Source) : List (List Token) := groupsFrom 0 [] s.merged

end Source

end ScriptIndent
