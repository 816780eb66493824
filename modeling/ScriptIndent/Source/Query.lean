import ScriptIndent.Source.Basic

/-!
# ScriptIndent.Source.Query

Questions about the code tokens of a source: which tokens an anchor covers and
which stand next to it.

An anchor is a node or a token.  A token covers itself, a node the tokens that
overlap its range.  The tokens are searched by their starts.  A comment has no
place among the code tokens: the search forwards from it starts with the first
token, the search backwards finds nothing, and a stretch that ends at a comment
ends before the last token.
-/

namespace ScriptIndent

/-- A place in a source: a node or a token. -/
inductive Anchor where
  | node (n : Node)
  | token (t : Token)

instance : Coe Node Anchor := ⟨.node⟩
instance : Coe Token Anchor := ⟨.token⟩

namespace Source

/-- The number of tokens that start before an offset. -/
def startsBefore (s : Source) (o : Offset) : Nat :=
  partitionPoint s.tokens.size fun i => s.tokens[i]?.any (·.start < o)

/-- The number of tokens that start at or before an offset. -/
def startsUpTo (s : Source) (o : Offset) : Nat :=
  partitionPoint s.tokens.size fun i => s.tokens[i]?.any (·.start ≤ o)

/-! ## scanning -/

/-- The last token below an index that passes a test. -/
def scanDown (tokens : Array Token) (keep : Token → Bool) : Nat → Option Token
  | 0 => none
  | i + 1 =>
    match tokens[i]?.filter keep with
    | some t => some t
    | none => scanDown tokens keep i

/-- The first token from an index on that passes a test. -/
def scanUp (tokens : Array Token) (keep : Token → Bool) (i : Nat) : Option Token :=
  if h : i < tokens.size then
    if keep tokens[i] then some tokens[i] else scanUp tokens keep (i + 1)
  else none
termination_by tokens.size - i

/-- The last token below an index that passes a test, the search ending at the
first token that stops at or before `start`. -/
def scanCovered (tokens : Array Token) (start : Offset) (keep : Token → Bool) :
    Nat → Option Token
  | 0 => none
  | i + 1 =>
    match tokens[i]? with
    | some t =>
      if start < t.stop then if keep t then some t else scanCovered tokens start keep i else none
    | none => none

/-! ## the tokens of an anchor -/

/-- The first token of a node: the one that covers its start, or else the first
that starts inside it. -/
def firstOfNode? (s : Source) (n : Node) : Option Token :=
  let i := s.startsUpTo n.start
  match (if i = 0 then none else s.tokens[i - 1]?).filter (n.start < ·.stop) with
  | some t => some t
  | none => s.tokens[i]?.filter (·.start < n.stop)

/-- The last token of a node that passes a test. -/
def lastOfNode? (s : Source) (n : Node) (keep : Token → Bool) : Option Token :=
  scanCovered s.tokens n.start keep (s.startsBefore n.stop)

/-- The first token of an anchor. -/
def first? (s : Source) : Anchor → Option Token
  | .node n => s.firstOfNode? n
  | .token t => some t

/-- The last token of an anchor that passes a test. -/
def lastWhere? (s : Source) (keep : Token → Bool) : Anchor → Option Token
  | .node n => s.lastOfNode? n keep
  | .token t => if keep t then some t else none

/-- The last token of an anchor. -/
def last? (s : Source) (a : Anchor) : Option Token := s.lastWhere? Token.isAny a

/-- The offset at which an anchor stops. -/
def stopOf : Anchor → Offset
  | .node n => n.stop
  | .token t => t.stop

/-- At most `count` tokens from the first token of an anchor on, as long as they
start inside it.  From a comment on there is only the last token. -/
def firsts (s : Source) (a : Anchor) (count : Nat) : List Token :=
  match s.first? a with
  | none => []
  | some t =>
    let i := t.index.getD (s.tokens.size - 1)
    (s.tokens.extract i (i + count)).toList.takeWhile (·.start < stopOf a)

/-- The code tokens of an anchor.  A comment has none. -/
def tokensOf (s : Source) (a : Anchor) : List Token :=
  match s.first? a, s.last? a with
  | some first, some last =>
    (s.tokens.extract (first.index.getD 0) (last.index.elim 0 (· + 1))).toList
  | _, _ => []

/-! ## the neighbours of an anchor -/

/-- The nearest token before an anchor that passes a test. -/
def beforeWhere? (s : Source) (keep : Token → Bool) (a : Anchor) : Option Token :=
  (s.first? a).bind fun t => scanDown s.tokens keep (t.index.getD 0)

/-- The nearest token behind an anchor that passes a test. -/
def afterWhere? (s : Source) (keep : Token → Bool) (a : Anchor) : Option Token :=
  (s.last? a).bind fun t => scanUp s.tokens keep (t.index.elim 0 (· + 1))

/-- The token before an anchor. -/
def before? (s : Source) (a : Anchor) : Option Token := s.beforeWhere? Token.isAny a

/-- The token behind an anchor. -/
def after? (s : Source) (a : Anchor) : Option Token := s.afterWhere? Token.isAny a

/-- The tokens behind one anchor and before another that pass a test. -/
def betweenWhere (s : Source) (keep : Token → Bool) (left right : Anchor) : List Token :=
  match s.last? left, s.first? right with
  | some a, some b =>
    ((s.tokens.extract (a.index.elim 0 (· + 1)) (b.index.getD (s.tokens.size - 1))).toList).filter
      keep
  | _, _ => []

/-- The tokens behind one anchor and before another. -/
def between (s : Source) (left right : Anchor) : List Token :=
  s.betweenWhere Token.isAny left right

end Source

end ScriptIndent
