import ScriptIndent.Offset.Registry

/-!
# ScriptIndent.Rule.Draft

What a rule does: it drafts entries, and it may stop short.

A rule reads the tree and the tokens and drafts entries for the registry.  It
reads nothing of the registry.  When the tree lacks something that the grammar
guarantees, the rule stops with a fault; the entries drafted by then stand.
-/

namespace ScriptIndent

/-- What is asked of a part of a construct. -/
inductive Aspect where
  | kind
  | start
  | stop
  | children
  deriving DecidableEq, Repr

/-- A tree so damaged that a rule cannot even say which token it misses. -/
inductive Damage where
  /-- A part of the construct is absent that was to be asked something. -/
  | absent (asked : Aspect)
  /-- A construct that begins with two tokens has fewer. -/
  | tooFewTokens (found : Nat)
  /-- A construct has no tokens. -/
  | noTokens
  deriving DecidableEq, Repr

/-- Why a rule stopped. -/
inductive Fault where
  /-- A token that the grammar guarantees was not found next to a node. -/
  | tokenNotFound (description nodeKind : String) (line : Nat)
  | damaged (damage : Damage)
  deriving DecidableEq, Repr

/-- Entries drafted so far, and how the drafting ended. -/
structure Draft (α : Type) where
  writes : List Entry
  result : Except Fault α

namespace Draft

/-- Draft nothing. -/
def ok {α : Type} (a : α) : Draft α := ⟨[], .ok a⟩

/-- Go on with a draft, unless it stopped short. -/
def andThen {α β : Type} (x : Draft α) (f : α → Draft β) : Draft β :=
  match x.result with
  | .error e => ⟨x.writes, .error e⟩
  | .ok a => ⟨x.writes ++ (f a).writes, (f a).result⟩

instance : Monad Draft where
  pure := ok
  bind := andThen

@[simp] theorem writes_pure {α : Type} (a : α) : (pure a : Draft α).writes = [] := rfl

@[simp] theorem result_pure {α : Type} (a : α) : (pure a : Draft α).result = .ok a := rfl

theorem bind_of_ok {α β : Type} {x : Draft α} {a : α} (h : x.result = .ok a)
    (f : α → Draft β) : (x >>= f) = ⟨x.writes ++ (f a).writes, (f a).result⟩ := by
  change x.andThen f = _
  simp only [andThen, h]

theorem bind_of_error {α β : Type} {x : Draft α} {e : Fault} (h : x.result = .error e)
    (f : α → Draft β) : (x >>= f) = ⟨x.writes, .error e⟩ := by
  change x.andThen f = _
  simp only [andThen, h]

/-! ## drafting -/

/-- Stop short. -/
def fail {α : Type} (e : Fault) : Draft α := ⟨[], .error e⟩

/-- Draft entries. -/
def write (es : List Entry) : Draft Unit := ⟨es, .ok ()⟩

/-- Place tokens relative to a base. -/
def offsets (tokens : List Token) (levels : Int) (base : Token) : Draft Unit :=
  write (Entry.offsets tokens levels (some base))

/-- Place a token relative to a base. -/
def offset (token : Token) (levels : Int) (base : Token) : Draft Unit :=
  offsets [token] levels base

/-- Place the elements of a delimited list and its closing delimiter. -/
def elements (s : Source) (items : List Node) (left : Token) (right : Option Token)
    (levels : Int) : Draft Unit :=
  write (Entry.elements s (items.map .node) (some left) right levels)

/-- Draft for each member of a list in turn. -/
def each {α : Type} (f : α → Draft Unit) : List α → Draft Unit
  | [] => pure ()
  | a :: rest => do
    f a
    each f rest

/-! ## what the grammar guarantees -/

/-- A part of a construct, of which something is to be asked. -/
def part (asked : Aspect) : Option Node → Draft Node
  | some n => pure n
  | none => fail (.damaged (.absent asked))

/-- A token next to a node. -/
def require (s : Source) (n : Node) (description : String) : Option Token → Draft Token
  | some t => pure t
  | none => fail (.tokenNotFound description n.kind (s.lineOfNode n))

/-- The first token of a node. -/
def first (s : Source) (n : Node) : Draft Token :=
  require s n "first token" (s.firstOfNode? n)

/-- The last token of a node. -/
def last (s : Source) (n : Node) : Draft Token :=
  require s n "last token" (s.lastOfNode? n Token.isAny)

/-- The first token of a part. -/
def firstOf (s : Source) (p : Option Node) : Draft Token := do
  first s (← part .start p)

/-- The token of a keyword, if the node has it. -/
def keyword? (s : Source) (n : Node) (value : String) : Draft (Option Token) :=
  match n.keyword? value with
  | none => pure none
  | some child => some <$> first s child

end Draft

end ScriptIndent
