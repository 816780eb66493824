import ScriptIndent.Rule.Control

/-!
# ScriptIndent.Rule.Functions

Rules for functions, classes and the members of classes and objects.

Bodies and members are placed relative to the first token of the whole
construct, never relative to the parameters.
-/

namespace ScriptIndent.Rule

open Draft

/-- The tokens between the start of a function and its parameters, with their
levels: modifiers are flush, the star or the name and all behind it indented.
Type parameters end the stretch. -/
def headLevels (name : Option Node) (levels : Int) : List Token → List (Token × Int)
  | [] => []
  | t :: rest =>
    if t.value == "<" then []
    else
      let levels := if t.value == "*" || name.any (·.start = t.start) then 1 else levels
      (t, levels) :: headLevels name levels rest

/-- Functions with a parameter list. -/
def function (s : Source) (n : Node) : Draft Unit := do
  let keyword ← first s n
  let parameters ← part .start (n.field? "parameters")
  let left ← first s parameters
  each (fun (t, levels) => offset t levels keyword)
    (headLevels (n.field? "name") 0 (s.between keyword left))
  let right ← last s parameters
  offset left 1 keyword
  elements s parameters.codeChildren left right 1
  offset (← firstOf s (n.field? "body")) 0 keyword

/-- The parameters of an arrow function, with the parenthesis that closes
them. -/
def arrowParameters (s : Source) (n : Node) (left : Token) : Draft Unit :=
  let parameters := (n.field? "parameters").elim [] (·.codeChildren)
  let anchor : Anchor := parameters.getLast?.elim left .node
  elements s parameters left (s.afterWhere? Token.isClosingParen anchor) 1

/-- Arrow functions: the arrow is indented, and so is a body without braces. -/
def arrow (s : Source) (n : Node) : Draft Unit :=
  match s.firsts n 2 with
  | [] => fail (.damaged .noTokens)
  | head :: more => do
    let second := more.head?
    let isAsync := n.children.head?.any (·.kind == "async")
    let left := if isAsync then second else some head
    let statement ← part .start (n.field? "body")
    let sign ← require s n "`=>`" (s.beforeWhere? Token.isArrow statement)
    if isAsync then offsets second.toList 1 head
    match left.filter Token.isOpeningParen with
    | none => pure ()
    | some left => arrowParameters s n left
    offset sign 1 head
    body s statement head

/-- The key of a member is flush with the member's first token, and so are the
modifiers before it.  The last token of the key is returned. -/
def memberKey (s : Source) (start : Token) (key : Option Node) : Draft Token := do
  let key ← part .kind key
  if key.kind == "computed_property_name" then
    let left ← first s key
    let right ← last s key
    offsets (s.between start left) 0 start
    offset left 0 start
    elements s key.codeChildren left right 1
    pure right
  else
    let token ← first s key
    offsets (s.between start token) 0 start
    offset token 0 start
    last s key

/-- Methods, getters and setters. -/
def method (s : Source) (n : Node) : Draft Unit := do
  let start ← first s n
  let key ← memberKey s start (n.field? "name")
  let parameters ← part .start (n.field? "parameters")
  let left ← first s parameters
  let right ← last s parameters
  offsets (s.between key left) 1 key
  offset left 1 start
  elements s parameters.codeChildren left right 1
  offset (← firstOf s (n.field? "body")) 0 start

/-- A member with a value: what follows the key is indented from it. -/
def memberValue (s : Source) (start : Token) (key value : Option Node) : Draft Unit := do
  let key ← memberKey s start key
  match value with
  | none => pure ()
  | some value => do
    let token ← first s value
    offsets (s.between key token ++ [token]) 1 key

/-- Properties of objects and of object patterns. -/
def pair (s : Source) (n : Node) : Draft Unit := do
  memberValue s (← first s n) (n.field? "key") (n.field? "value")

/-- Fields of classes. -/
def fieldDefinition (s : Source) (n : Node) : Draft Unit := do
  memberValue s (← first s n) (n.field? "property") (n.field? "value")

/-- Classes: the name and the heritage are indented from the keyword, the body
is flush with it. -/
def classDefinition (s : Source) (n : Node) : Draft Unit := do
  let keyword ←
    match ← keyword? s n "class" with
    | some keyword => pure keyword
    | none => first s n
  match n.field? "name" with
  | none => pure ()
  | some name => do offset (← first s name) 1 keyword
  match n.childOfKind? "class_heritage" with
  | none => pure ()
  | some heritage => do
    let word ← first s heritage
    offset word 1 keyword
    offsets (s.after? word).toList 1 word
  offset (← firstOf s (n.field? "body")) 0 keyword

end ScriptIndent.Rule
