/-!
# ScriptIndent.Syntax.Node

Concrete syntax trees over a source text.

A node has a kind, a range of byte offsets (`stop` excluded), the names of the
fields under which its parent refers to it, and its children in document
order.  Nothing is assumed of a tree: children may be missing, ranges may be
empty or disagree with the text, and every reader of a tree copes with that.

Offsets are integers, because a range computed from a damaged tree may start
before the text does.
-/

namespace ScriptIndent

/-- A position in a source text, counted in bytes. -/
abbrev Offset := Int

/-- A syntax tree. -/
structure Node where
  /-- The grammar's name for the construct. -/
  kind : String
  /-- A named node stands for a construct, an anonymous one for a piece of
  punctuation or a keyword. -/
  isNamed : Bool
  /-- The parser invented this node to recover from an error. -/
  isMissing : Bool
  /-- The subtree holds an error. -/
  hasError : Bool
  /-- The fields of the parent that this node answers to. -/
  fields : List String
  start : Offset
  stop : Offset
  children : List Node

namespace Node

/-- The kinds of nodes that hold a comment. -/
def isCommentKind (kind : String) : Bool :=
  kind == "comment" || kind == "html_comment"

/-- A comment, which no rule looks at. -/
def isComment (n : Node) : Bool := isCommentKind n.kind

/-- The children that stand for constructs. -/
def namedChildren (n : Node) : List Node := n.children.filter (·.isNamed)

/-- The children that stand for constructs, comments left out. -/
def codeChildren (n : Node) : List Node := n.namedChildren.filter (!·.isComment)

/-- The first child that answers to a field. -/
def field? (n : Node) (name : String) : Option Node :=
  n.children.find? (·.fields.contains name)

/-- The first child of a kind, named or not. -/
def childOfKind? (n : Node) (kind : String) : Option Node :=
  n.children.find? (·.kind == kind)

/-- Some child has the kind. -/
def hasChildOfKind (n : Node) (kind : String) : Bool :=
  n.children.any (·.kind == kind)

/-- The first anonymous child that spells a keyword. -/
def keyword? (n : Node) (value : String) : Option Node :=
  n.children.find? fun child => !child.isNamed && child.kind == value

/-- Two nodes of one kind and one range are taken for the same node. -/
def same (a b : Node) : Bool :=
  a.kind == b.kind && a.start == b.start && a.stop == b.stop

/-! ## addresses -/

/-- A node and the nodes above it, its parent first. -/
structure Placed where
  node : Node
  ancestors : List Node

/-- The node at an address, a list of child indexes from the root, with the
nodes passed on the way. -/
def at? (ancestors : List Node) (n : Node) : List Nat → Option Placed
  | [] => some ⟨n, ancestors⟩
  | i :: rest => n.children[i]?.bind fun child => child.at? (n :: ancestors) rest

/-! ## errors -/

mutual

/-- The first error in document order: a node of kind `ERROR`, or one that the
parser invented.  Subtrees without the error flag are passed over. -/
def firstError? : Node → Option Node
  | n@⟨kind, _, isMissing, hasError, _, _, _, children⟩ =>
    if kind == "ERROR" || isMissing then some n
    else if hasError then firstErrorAmong? children
    else none

/-- The first error of a list of trees. -/
def firstErrorAmong? : List Node → Option Node
  | [] => none
  | n :: rest => (firstError? n).or (firstErrorAmong? rest)

end

end Node

end ScriptIndent
