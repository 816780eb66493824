import ScriptIndent.Proofs.Rule.Links
import ScriptIndent.Proofs.Rule.Parens
import ScriptIndent.Proofs.Rule.Templates

/-!
# ScriptIndent.Proofs.Account.Production

The productions of the grammar: which children a construct has.

```
if  ( a )  b  else c        keyword, head, statement and, perhaps, an alternative;
                            the alternative holds a keyword and a statement
```

The shape of a construct names the children that its rule reads (`Node.Shape`) and leaves
open which others there are.  Its production lists all of them, comments apart
(`Node.Production`), and says where the constructs stand whose tokens a rule around them
places (`Node.Housed`).  A tree is *produced* if each construct has a rule and the children
that its production lists (`Node.Produced`).
-/

namespace ScriptIndent

namespace Node

/-! ## patterns -/

theorem IsOperator.isLexeme {b : Buffer} {n : Node} (h : n.IsOperator b) : n.IsLexeme b := by
  obtain ⟨value, hspells, hvalue, -⟩ := h
  exact ⟨value, hspells, hvalue⟩

/-- The node makes one code token. -/
def IsToken (b : Buffer) (n : Node) : Prop := Piece.codeCount (n.pieces b) = 1

/-- The children are these, and perhaps a semicolon behind them. -/
def Terminated (b : Buffer) (n : Node) (parts : List Node) : Prop :=
  n.parts = parts ∨ ∃ semicolon : Node, semicolon.Spells b ";" ∧ n.parts = parts ++ [semicolon]

/-- Delimiters with constructs between them, and the signs that separate these. -/
def Listed (b : Buffer) (n : Node) (left right : String) (signs : List String) : Prop :=
  ∃ opening inner closing, n.parts = opening :: (inner ++ [closing]) ∧ opening.Spells b left ∧
    closing.Spells b right ∧ ∀ c ∈ inner, c.IsCode ∨ ∃ sign ∈ signs, c.Spells b sign

/-! ## the productions -/

/-- The constructs whose tokens are placed by a construct around them and that have more
than one child. -/
def wrapperKinds : List String := [
  "expression_statement", "debugger_statement", "parenthesized_expression",
  "template_substitution", "else_clause", "switch_body", "class_heritage", "arguments",
  "formal_parameters", "computed_property_name", "import_clause", "named_imports",
  "namespace_export", "export_clause", "finally_clause"]

/-- The productions of the constructs whose tokens are placed by a construct around them.  An import
places all tokens of its clause, and an export those of the name for a module. -/
structure PlainProduction (b : Buffer) (n : Node) : Prop where
  leaf : n.kind ∉ wrapperKinds → isAtomicKind n.kind = true ∨ n.parts.length ≤ 1
  expression : n.kind = "expression_statement" → ∃ c : Node, c.IsCode ∧ n.Terminated b [c]
  debugger : n.kind = "debugger_statement" →
    ∃ keyword : Node, keyword.IsLexeme b ∧ n.Terminated b [keyword]
  parenthesized : n.kind = "parenthesized_expression" → ∃ inner : Node,
    n.Parenthesizes b inner ∧ Construct.isExpressionKind inner.kind = true
  alternative : n.kind = "else_clause" → ∃ keyword statement : Node,
    keyword.IsLexeme b ∧ statement.IsCode ∧ n.parts = [keyword, statement]
  finalizer : n.kind = "finally_clause" → ∃ keyword block : Node,
    keyword.IsLexeme b ∧ n.IsPart "body" block ∧ n.parts = [keyword, block]
  heritage : n.kind = "class_heritage" → ∃ keyword c : Node,
    keyword.IsLexeme b ∧ n.parts = [keyword, c]
  clauses : n.kind = "switch_body" → n.Listed b "\x7b" "\x7d" []
  arguments : n.kind = "arguments" ∨ n.kind = "formal_parameters" → n.Listed b "(" ")" [","]
  key : n.kind = "computed_property_name" → n.Listed b "[" "]" []
  names : n.kind = "named_imports" ∨ n.kind = "export_clause" → n.Listed b "\x7b" "\x7d" [","]
  specifiers : n.kind = "named_imports" → ∀ c ∈ n.codeChildren, c.kind = "import_specifier"

section Productions

variable (b : Buffer) (n : Node)

def BlockProduction : Prop :=
  n.Listed b "\x7b" "\x7d" (if n.kind = "class_body" then [";"] else [])

def SequenceProduction : Prop :=
  ∃ first rest, n.parts = first :: rest ∧ ∀ c ∈ rest, c.IsCode ∨ c.Spells b ","

def DeclarationProduction : Prop :=
  ∃ keyword rest, n.Terminated b (keyword :: rest) ∧ keyword.IsLexeme b ∧
    ∀ c ∈ rest, c.IsCode ∧ c.kind = "variable_declarator" ∨ c.Spells b ","

def DeclaratorProduction : Prop :=
  ∃ name, n.field? "name" = some name ∧ (n.parts = [name] ∨
    ∃ equals value, equals.Spells b "=" ∧ n.IsPart "value" value ∧ n.parts = [name, equals, value])

/-- An assignment may have a keyword before its target. -/
def ChainProduction : Prop :=
  ∃ left operator right, n.IsPart "left" left ∧ operator.IsOperator b ∧ n.IsPart "right" right ∧
    (n.parts = [left, operator, right] ∨
      ∃ word, word.Spells b "using" ∧ n.parts = [word, left, operator, right])

def TernaryProduction : Prop :=
  ∃ condition question consequence colon alternative,
    n.parts = [condition, question, consequence, colon, alternative] ∧
    n.IsPart "condition" condition ∧ question.Spells b "?" ∧ n.IsPart "consequence" consequence ∧
    colon.Spells b ":" ∧ n.IsPart "alternative" alternative

/-- Only the sign of an update may stand behind its operand. -/
def OperandProduction : Prop :=
  ∃ sign operand, sign.IsLexeme b ∧ operand.IsCode ∧
    (n.parts = [sign, operand] ∨ n.kind = "update_expression" ∧ n.parts = [operand, sign])

def YieldingProduction : Prop :=
  ∃ keyword, keyword.IsLexeme b ∧ (n.parts = [keyword] ∨
    (∃ operand : Node, operand.IsCode ∧ n.parts = [keyword, operand]) ∨
    ∃ star operand : Node, star.Spells b "*" ∧ operand.IsCode ∧ n.parts = [keyword, star, operand])

def ConditionalProduction : Prop :=
  ∃ keyword head consequence, keyword.IsLexeme b ∧ head.IsCode ∧
    n.IsPart "consequence" consequence ∧
    (∀ alternative, n.field? "alternative" = some alternative → alternative.IsCode) ∧
    n.parts = keyword :: head :: consequence :: (n.field? "alternative").toList

def HeadedProduction : Prop :=
  ∃ keyword head body, keyword.IsLexeme b ∧ head.IsCode ∧ n.IsPart "body" body ∧
    n.parts = [keyword, head, body]

def DoLoopProduction : Prop :=
  ∃ keyword body again condition, keyword.IsLexeme b ∧ n.IsPart "body" body ∧
    again.Spells b "while" ∧ n.IsPart "condition" condition ∧
    n.Terminated b [keyword, body, again, condition]

/-- The clauses may bring their semicolons along. -/
def ForLoopProduction : Prop :=
  ∃ keyword left inner right body, keyword.IsLexeme b ∧ left.Spells b "(" ∧
    (∀ c ∈ inner, c.IsCode ∨ c.Spells b ";") ∧ right.Spells b ")" ∧ n.IsPart "body" body ∧
    n.parts = keyword :: left :: (inner ++ [right, body])

/-- The variable may have a keyword before it and a value behind it. -/
def ForInLoopProduction : Prop :=
  ∃ keyword left target more word collection right body,
    keyword.IsLexeme b ∧ (∀ await, n.keyword? "await" = some await → await.Spells b "await") ∧
    left.Spells b "(" ∧ (∀ c ∈ target :: more, c.IsCode ∨ c.IsLexeme b) ∧
    word.IsOperator b ∧ n.field? "operator" = some word ∧ collection.IsCode ∧
    right.Spells b ")" ∧ n.IsPart "body" body ∧
    n.parts = keyword :: ((n.keyword? "await").toList ++
      left :: target :: (more ++ [word, collection, right, body]))

def SwitchProduction : Prop :=
  ∃ keyword head body, keyword.IsLexeme b ∧ n.IsPart "value" head ∧ n.IsPart "body" body ∧
    n.parts = [keyword, head, body]

def ClauseProduction : Prop :=
  ∃ keyword colon statements, keyword.IsLexeme b ∧ colon.Spells b ":" ∧
    (∀ value, n.field? "value" = some value → value.IsCode) ∧ (∀ c ∈ statements, c.IsCode) ∧
    n.parts = keyword :: ((n.field? "value").toList ++ colon :: statements)

def GuardedProduction : Prop :=
  ∃ keyword body, keyword.IsLexeme b ∧ n.IsPart "body" body ∧
    n.parts = keyword :: body :: ((n.field? "handler").toList ++ (n.field? "finalizer").toList)

def HandlerProduction : Prop :=
  ∃ keyword body, keyword.IsLexeme b ∧ n.IsPart "body" body ∧
    (n.parts = [keyword, body] ∨
      ∃ left parameter right, left.Spells b "(" ∧ n.IsPart "parameter" parameter ∧
        right.Spells b ")" ∧ n.parts = [keyword, left, parameter, right, body])

def LabeledProduction : Prop :=
  ∃ label colon body, label.IsToken b ∧ colon.Spells b ":" ∧ body.IsCode ∧
    n.parts = [label, colon, body]

def JumpProduction : Prop :=
  ∃ keyword, keyword.IsLexeme b ∧ n.Terminated b (keyword :: (n.field? "label").toList)

def ExitProduction : Prop :=
  ∃ keyword, keyword.IsLexeme b ∧ (n.Terminated b [keyword] ∨
    ∃ operand : Node, operand.IsCode ∧ n.Terminated b [keyword, operand])

/-- Between the keyword and the parameters stand single tokens, and none is an angle bracket. -/
def FunctionProduction : Prop :=
  ∃ keyword words parameters body, keyword.IsLexeme b ∧
    (∀ c ∈ words, c.IsToken b ∧ ¬c.Begins b "<") ∧ n.IsPart "parameters" parameters ∧
    n.IsPart "body" body ∧ n.parts = keyword :: (words ++ [parameters, body])

/-- Whatever stands before the key is a modifier. -/
def MethodProduction : Prop :=
  ∃ modifiers key parameters body, n.IsPart "name" key ∧ n.IsPart "parameters" parameters ∧
    n.IsPart "body" body ∧ n.parts = modifiers ++ [key, parameters, body]

def MemberProduction (name : String) : Prop :=
  ∃ modifiers key, n.IsPart name key ∧ (n.parts = modifiers ++ [key] ∨
    ∃ sign value, sign.IsLexeme b ∧ n.IsPart "value" value ∧
      n.parts = modifiers ++ [key, sign, value])

def ClassProduction : Prop :=
  ∃ keyword body, n.keyword? "class" = some keyword ∧ keyword.Spells b "class" ∧
    n.IsPart "body" body ∧
    n.parts = keyword :: ((n.field? "name").toList ++ (n.childOfKind? "class_heritage").toList ++ [body])

def AccessProduction : Prop :=
  ∃ object link property, n.IsPart "object" object ∧ link.IsLink b ∧
    n.IsPart "property" property ∧ n.parts = [object, link, property]

def SubscriptProduction : Prop :=
  ∃ object links left index right, n.IsPart "object" object ∧ (∀ c ∈ links, c.IsOptionalSign b) ∧
    left.Spells b "[" ∧ n.IsPart "index" index ∧ right.Spells b "]" ∧
    n.parts = object :: (links ++ [left, index, right])

/-- A meta property is one word of another. -/
def MetaProduction : Prop :=
  ∃ word dot name : Node, word.IsToken b ∧ dot.IsToken b ∧ name.IsToken b ∧
    n.parts = [word, dot, name]

def CallProduction : Prop :=
  ∃ callee links arguments, n.IsPart "function" callee ∧ (∀ c ∈ links, c.IsOptionalSign b) ∧
    n.IsPart "arguments" arguments ∧ (arguments.kind = "template_string" → links = []) ∧
    n.parts = callee :: (links ++ [arguments])

def CreationProduction : Prop :=
  ∃ keyword callee, keyword.IsLexeme b ∧ n.IsPart "constructor" callee ∧
    n.parts = keyword :: callee :: (n.field? "arguments").toList

/-- Each substitution puts in one expression. -/
def TemplateProduction : Prop :=
  ∀ c ∈ n.children, c.kind = "template_substitution" → ∃ e, c.PutsIn e

def ImportingProduction : Prop :=
  ∃ keyword module, keyword.IsLexeme b ∧ n.IsPart "source" module ∧
    (n.childOfKind? "import_clause" = none ∧ n.Terminated b [keyword, module] ∨
      ∃ clause word, n.childOfKind? "import_clause" = some clause ∧ clause.IsCode ∧
        word.Spells b "from" ∧ n.Terminated b [keyword, clause, word, module])

/-- A specifier with more than a name has an alias. -/
def ImportSpecifierProduction : Prop := 1 < n.parts.length → (n.field? "alias").isSome = true

/-- An export of a default, or of a declaration. -/
def ExportsOwn (keyword : Node) : Prop :=
  n.childOfKind? "export_clause" = none ∧ n.childOfKind? "namespace_export" = none ∧
    ((∃ word target, n.keyword? "default" = some word ∧ word.Spells b "default" ∧ target.IsCode ∧
        (n.field? "declaration").or (n.field? "value") = some target ∧
        n.Terminated b [keyword, word, target]) ∨
      n.keyword? "default" = none ∧
        ∃ target, n.IsPart "declaration" target ∧ n.parts = [keyword, target])

/-- An export of names in braces, those of a module or others. -/
def ExportsListed (keyword : Node) : Prop :=
  n.childOfKind? "namespace_export" = none ∧
    ∃ clause, n.childOfKind? "export_clause" = some clause ∧ clause.IsCode ∧
      (n.field? "source" = none ∧ n.Terminated b [keyword, clause] ∨
        ∃ word module, word.Spells b "from" ∧ n.IsPart "source" module ∧
          n.Terminated b [keyword, clause, word, module])

/-- An export of all of a module, perhaps under a name. -/
def ExportsModule (keyword : Node) : Prop :=
  n.childOfKind? "export_clause" = none ∧ ∃ names word module,
    (names.Spells b "*" ∧ n.childOfKind? "namespace_export" = none ∨
      n.childOfKind? "namespace_export" = some names) ∧
    word.Spells b "from" ∧ n.IsPart "source" module ∧
    n.Terminated b [keyword, names, word, module]

def ExportingProduction : Prop :=
  ∃ keyword, n.keyword? "export" = some keyword ∧ keyword.Spells b "export" ∧
    (n.ExportsOwn b keyword ∨ n.keyword? "default" = none ∧ n.field? "declaration" = none ∧
      (n.ExportsListed b keyword ∨ n.ExportsModule b keyword))

/-- The children that the grammar gives a construct, comments apart. -/
def Production : Construct → Prop
  | .plain => n.PlainProduction b
  | .program => ∀ c ∈ n.parts, c.IsCode
  | .arrayList => n.Listed b "[" "]" [","]
  | .objectList => n.Listed b "\x7b" "\x7d" [","]
  | .block => n.BlockProduction b
  | .staticBlock => ∃ keyword body, keyword.IsLexeme b ∧ n.IsPart "body" body ∧
      n.parts = [keyword, body]
  | .sequence => n.SequenceProduction b
  | .declaration => n.DeclarationProduction b
  | .declarator => n.DeclaratorProduction b
  | .chain => n.ChainProduction b
  | .ternary => n.TernaryProduction b
  | .operand => n.OperandProduction b
  | .yielding => n.YieldingProduction b
  | .conditional => n.ConditionalProduction b
  | .headed => n.HeadedProduction b
  | .doLoop => n.DoLoopProduction b
  | .forLoop => n.ForLoopProduction b
  | .forInLoop => n.ForInLoopProduction b
  | .switch => n.SwitchProduction b
  | .clause => n.ClauseProduction b
  | .guarded => n.GuardedProduction b
  | .handler => n.HandlerProduction b
  | .labeled => n.LabeledProduction b
  | .jump => n.JumpProduction b
  | .exit => n.ExitProduction b
  | .function => n.FunctionProduction b
  | .arrow => n.ArrowShape b
  | .method => n.MethodProduction
  | .classDefinition => n.ClassProduction b
  | .fieldDefinition => n.MemberProduction b "property"
  | .pair => n.MemberProduction b "key"
  | .member => n.AccessProduction b
  | .subscript => n.SubscriptProduction b
  | .metaProperty => n.MetaProduction b
  | .call => n.CallProduction b
  | .creation => n.CreationProduction b
  | .templateLiteral => n.TemplateProduction
  | .importing => n.ImportingProduction b
  | .importSpecifier => n.ImportSpecifierProduction
  | .aliased => True
  | .exporting => n.ExportingProduction b

end Productions

/-- The node has the children that its production lists. -/
def IsProduced (b : Buffer) (n : Node) : Prop :=
  ∀ construct, Construct.ofKind? n.kind = some construct → n.Production b construct

/-! ## where wrappers stand -/

/-- The wrappers that answer to a field, with the constructs around them. -/
def fieldHomes : List (String × Construct × String) := [
  ("else_clause", .conditional, "alternative"),
  ("finally_clause", .guarded, "finalizer"),
  ("switch_body", .switch, "body"),
  ("arguments", .call, "arguments"),
  ("arguments", .creation, "arguments"),
  ("formal_parameters", .function, "parameters"),
  ("formal_parameters", .arrow, "parameters"),
  ("formal_parameters", .method, "parameters"),
  ("computed_property_name", .method, "name"),
  ("computed_property_name", .fieldDefinition, "property"),
  ("computed_property_name", .pair, "key")]

/-- The wrappers that are the first of their kind in the constructs around them. -/
def kindHomes : List (String × Construct) := [
  ("class_heritage", .classDefinition),
  ("import_clause", .importing),
  ("namespace_export", .exporting),
  ("export_clause", .exporting)]

/-- A wrapper stands where the grammar has it. -/
structure Housed (n c : Node) : Prop where
  field : c.kind ∈ fieldHomes.map (·.1) → ∃ home ∈ fieldHomes, home.1 = c.kind ∧
    Construct.ofKind? n.kind = some home.2.1 ∧ n.field? home.2.2 = some c
  kind : c.kind ∈ kindHomes.map (·.1) → ∃ home ∈ kindHomes, home.1 = c.kind ∧
    Construct.ofKind? n.kind = some home.2 ∧ n.childOfKind? c.kind = some c
  names : c.kind = "named_imports" → n.kind = "import_clause"
  substitution : c.kind = "template_substitution" → n.kind = "template_string"

/-- A tree as the grammar produces it, of constructs with rules only. -/
structure Produced (b : Buffer) (root : Node) : Prop where
  /-- Every construct has a rule. -/
  ruled : ∀ m : Node, m.Within root → m = root ∨ m.IsCode → (Construct.ofKind? m.kind).isSome
  production : ∀ m : Node, m.Within root → m = root ∨ m.isNamed = true → m.IsProduced b
  housed : ∀ m : Node, m.Within root → ∀ c ∈ m.codeChildren, m.Housed c
  /-- Signs and keywords are leaves. -/
  leaf : ∀ m : Node, m.Within root → m.isNamed = false → m.isComment = false → m.children = []

/-! ## small trees -/

section Small

variable {b : Buffer} {n c : Node}

theorem isProduced_of_production {construct : Construct}
    (hrule : Construct.ofKind? n.kind = some construct) (h : n.Production b construct) :
    n.IsProduced b := by
  intro other hother
  obtain rfl := Option.mem_unique hrule hother
  exact h

/-- A leaf has no children. -/
theorem isProduced_of_leaf (hrule : Construct.ofKind? n.kind = some .plain)
    (hkind : n.kind ∉ wrapperKinds) (hchildren : n.children = []) : n.IsProduced b := by
  have hne {kind : String} (hmem : kind ∈ wrapperKinds) : n.kind ≠ kind :=
    fun heq => hkind (heq ▸ hmem)
  refine isProduced_of_production hrule ⟨fun _ => .inr (by simp [parts, hchildren]), ?_, ?_, ?_, ?_,
    ?_, ?_, ?_, ?_, ?_, ?_, ?_⟩
  all_goals
    intro h
    first
    | exact absurd h (hne (by decide))
    | exact (h.elim (hne (by decide)) (hne (by decide))).elim

theorem isProduced_of_expression (hkind : n.kind = "expression_statement") (hc : c.IsCode)
    (hparts : n.Terminated b [c]) : n.IsProduced b := by
  refine isProduced_of_production (show Construct.ofKind? n.kind = some .plain by rw [hkind]; decide)
    ⟨fun h => absurd (by rw [hkind]; decide) h, fun _ => ⟨c, hc, hparts⟩, ?_, ?_, ?_, ?_, ?_, ?_, ?_,
      ?_, ?_, ?_⟩
  all_goals simp [hkind]

/-- Most constructs may stand anywhere. -/
theorem housed_of_kind (hfield : c.kind ∉ fieldHomes.map (·.1)) (hkind : c.kind ∉ kindHomes.map (·.1))
    (hnames : c.kind ≠ "named_imports") (hsub : c.kind ≠ "template_substitution") : n.Housed c :=
  ⟨fun h => absurd h hfield, fun h => absurd h hkind, fun h => absurd h hnames,
    fun h => absurd h hsub⟩

/-- All constructs in a node have the children that their productions list. -/
def AllProduced (b : Buffer) (n : Node) : Prop :=
  ∀ m : Node, m.Within n → m.isNamed = true → m.IsProduced b

theorem allProduced_of_children (hn : n.IsProduced b) (hchildren : ∀ c ∈ n.children, c.AllProduced b) :
    n.AllProduced b := by
  intro m hm hnamed
  cases hm with
  | refl => exact hn
  | child hc hm => exact hchildren _ hc m hm hnamed

theorem allProduced_of_leaf (hrule : Construct.ofKind? n.kind = some .plain)
    (hkind : n.kind ∉ wrapperKinds) (hchildren : n.children = []) : n.AllProduced b :=
  allProduced_of_children (isProduced_of_leaf hrule hkind hchildren) (by simp [hchildren])

theorem allProduced_of_anonymous (hn : n.isNamed = false) (hchildren : n.children = []) :
    n.AllProduced b := by
  intro m hm hnamed
  cases hm with
  | refl => simp [hn] at hnamed
  | child hc => simp [hchildren] at hc

end Small

end Node

end ScriptIndent
