import ScriptIndent.Rule.Draft

/-!
# ScriptIndent.Rule.Modules

Rules for imports and exports.
-/

namespace ScriptIndent.Rule

open Draft

/-- A token spelled `from`. -/
def isFrom (t : Token) : Bool := t.value == "from"

/-- The tokens of an import between its keyword and its module: those before
the last `from`, that token if there is one, and those behind it.  Without a
`from` all tokens, and the module, come before. -/
structure ImportHead where
  before : List Token
  word : Option Token
  after : List Token

/-- Split the tokens of an import at the last `from`. -/
def ImportHead.of (tokens : List Token) (module : Token) : ImportHead :=
  match tokens.reverse.span (!isFrom ·) with
  | (after, word :: before) => ⟨before.reverse, some word, after.reverse ++ [module]⟩
  | (_, []) => ⟨tokens ++ [module], none, []⟩

/-- The tokens of an import clause that have been placed already: all but the
first of a namespace import, and those in the braces of named imports, which
are placed here. -/
def importPart (s : Source) (n : Node) (p : Node) : Draft (List Token) :=
  if p.kind == "namespace_import" then pure ((s.tokensOf p).drop 1)
  else if p.kind == "named_imports" then
    let specifiers := p.codeChildren.filter (·.kind == "import_specifier")
    match specifiers.head?, specifiers.getLast? with
    | some head, some tail => do
      let left ← require s n "`\x7b`" (s.before? head)
      let right ← require s n "`\x7d`" (s.afterWhere? Token.isClosingBrace tail)
      elements s specifiers left right 1
      pure (s.between left right)
    | _, _ => pure []
  else pure []

/-- The tokens of all parts of an import clause that have been placed. -/
def importParts (s : Source) (n : Node) : List Node → Draft (List Token)
  | [] => pure []
  | p :: rest => do
    let placed ← importPart s n p
    let more ← importParts s n rest
    pure (placed ++ more)

/-- Imports: `from` is flush with the keyword and the module is indented from
it.  Of what comes before, braces alone are flush and all else is indented. -/
def importing (s : Source) (n : Node) : Draft Unit := do
  let keyword ← first s n
  let module ← part .start (n.field? "source")
  let token ← first s module
  let head := ImportHead.of (s.between keyword module) token
  let clause := (n.childOfKind? "import_clause").elim [] (·.codeChildren)
  let placed ← importParts s n clause
  let before := head.before.filter (!placed.contains ·)
  offsets before (if before.all Token.isBrace then 0 else 1) keyword
  match head.word with
  | none => pure ()
  | some word => do
    offset word 0 keyword
    offsets head.after 1 word

/-- Constructs whose later tokens are all indented from the first. -/
def aliased (s : Source) (n : Node) : Draft Unit :=
  match s.tokensOf n with
  | [] => pure ()
  | token :: rest => offsets rest 1 token

/-- Import specifiers with an alias. -/
def importSpecifier (s : Source) (n : Node) : Draft Unit :=
  if (n.field? "alias").isSome then aliased s n else pure ()

/-- Exports of all of a module: `from` is flush with the keyword and the module
is indented from it; a name for the module is indented from the star. -/
def exportAll (s : Source) (n : Node) (keyword : Token) (module : Node) : Draft Unit := do
  match (s.between keyword module).span (!isFrom ·) with
  | (_, []) => fail (.tokenNotFound "`from`" n.kind (s.lineOfNode n))
  | (before, word :: after) => do
    let token ← first s module
    if (n.childOfKind? "namespace_export").isNone then offsets before 1 keyword
    else
      match before.span (·.value != "as") with
      | (star, renamed) =>
        match star.getLast?, renamed with
        | some last, _ :: _ => do
          offsets star 1 keyword
          offsets renamed 1 last
        | _, _ => fail (.tokenNotFound "`as`" n.kind (s.lineOfNode n))
    offset word 0 keyword
    offsets (after ++ [token]) 1 word

/-- Exports of names, with or without a module. -/
def exportNames (s : Source) (keyword : Token) (clause : Node) (module : Option Node) :
    Draft Unit := do
  let left ← first s clause
  let right ← last s clause
  offset left 0 keyword
  elements s clause.codeChildren left right 1
  match module with
  | none => pure ()
  | some module =>
    match s.between right module with
    | [] => pure ()
    | word :: rest => do
      offset word 0 keyword
      offsets (rest ++ [← first s module]) 1 word

/-- Exports. -/
def exporting (s : Source) (n : Node) : Draft Unit := do
  let keyword ←
    match ← keyword? s n "export" with
    | some keyword => pure keyword
    | none => first s n
  let declaration := n.field? "declaration"
  match ← keyword? s n "default" with
  | some _ =>
    match declaration.or (n.field? "value") with
    | none => pure ()
    | some target => do
      let token ← first s target
      offsets (s.between keyword token ++ [token]) 1 keyword
  | none =>
    match declaration with
    | some declaration => offset (← first s declaration) 1 keyword
    | none =>
      match n.childOfKind? "export_clause", n.field? "source" with
      | some clause, module => exportNames s keyword clause module
      | none, some module => exportAll s n keyword module
      | none, none => pure ()

end ScriptIndent.Rule
