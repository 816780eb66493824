/-!
# ScriptIndent.Rule.Construct

The constructs that have a rule of their own, and the node kinds that spell
them.

Kinds without a construct have no rule: nothing below such a node is judged.
Two further groups of kinds matter after a node's own rule: a statement may end
in a semicolon on a line of its own, and an expression may be wrapped in
parentheses.
-/

namespace ScriptIndent

/-- The constructs that rules tell apart. -/
inductive Construct where
  /-- A construct whose tokens are placed by a construct around it. -/
  | plain
  | program
  | arrayList
  | objectList
  | block
  | staticBlock
  | sequence
  | declaration
  | declarator
  | chain
  | ternary
  | operand
  | yielding
  | conditional
  | headed
  | doLoop
  | forLoop
  | forInLoop
  | switch
  | clause
  | guarded
  | handler
  | labeled
  | jump
  | exit
  | function
  | arrow
  | method
  | classDefinition
  | fieldDefinition
  | pair
  | member
  | subscript
  | metaProperty
  | call
  | creation
  | templateLiteral
  | importing
  | importSpecifier
  | aliased
  | exporting
  deriving DecidableEq, Repr

namespace Construct

/-- Kinds whose tokens are placed by a construct around them: single tokens
first, then wrappers. -/
def plainKinds : List String := [
  "identifier", "property_identifier", "private_property_identifier",
  "shorthand_property_identifier", "shorthand_property_identifier_pattern",
  "statement_identifier", "number", "string", "string_fragment",
  "escape_sequence", "regex", "regex_pattern", "regex_flags", "true", "false",
  "null", "undefined", "this", "super", "import", "optional_chain",
  "hash_bang_line", "debugger_statement",
  "expression_statement", "empty_statement", "parenthesized_expression",
  "template_substitution", "else_clause", "switch_body", "class_heritage",
  "arguments", "formal_parameters", "computed_property_name", "import_clause",
  "named_imports", "namespace_export", "export_clause", "finally_clause"]

/-- Kinds with a rule of their own. -/
def ruledKinds : List (String × Construct) := [
  ("program", .program),
  ("array", .arrayList),
  ("array_pattern", .arrayList),
  ("object", .objectList),
  ("object_pattern", .objectList),
  ("statement_block", .block),
  ("class_body", .block),
  ("class_static_block", .staticBlock),
  ("sequence_expression", .sequence),
  ("variable_declaration", .declaration),
  ("lexical_declaration", .declaration),
  ("variable_declarator", .declarator),
  ("assignment_expression", .chain),
  ("augmented_assignment_expression", .chain),
  ("assignment_pattern", .chain),
  ("object_assignment_pattern", .chain),
  ("binary_expression", .chain),
  ("ternary_expression", .ternary),
  ("await_expression", .operand),
  ("unary_expression", .operand),
  ("update_expression", .operand),
  ("spread_element", .operand),
  ("rest_pattern", .operand),
  ("yield_expression", .yielding),
  ("if_statement", .conditional),
  ("while_statement", .headed),
  ("with_statement", .headed),
  ("do_statement", .doLoop),
  ("for_statement", .forLoop),
  ("for_in_statement", .forInLoop),
  ("switch_statement", .switch),
  ("switch_case", .clause),
  ("switch_default", .clause),
  ("try_statement", .guarded),
  ("catch_clause", .handler),
  ("labeled_statement", .labeled),
  ("break_statement", .jump),
  ("continue_statement", .jump),
  ("return_statement", .exit),
  ("throw_statement", .exit),
  ("function_declaration", .function),
  ("function_expression", .function),
  ("function", .function),
  ("generator_function", .function),
  ("generator_function_declaration", .function),
  ("arrow_function", .arrow),
  ("method_definition", .method),
  ("class_declaration", .classDefinition),
  ("class", .classDefinition),
  ("field_definition", .fieldDefinition),
  ("pair", .pair),
  ("pair_pattern", .pair),
  ("member_expression", .member),
  ("subscript_expression", .subscript),
  ("meta_property", .metaProperty),
  ("call_expression", .call),
  ("new_expression", .creation),
  ("template_string", .templateLiteral),
  ("import_statement", .importing),
  ("import_specifier", .importSpecifier),
  ("namespace_import", .aliased),
  ("export_statement", .exporting),
  ("export_specifier", .aliased)]

/-- The construct that a node kind spells. -/
def ofKind? (kind : String) : Option Construct :=
  if plainKinds.contains kind then some .plain else ruledKinds.lookup kind

/-- All kinds that spell a construct. -/
def kinds : List String := plainKinds ++ ruledKinds.map (·.1)

/-- Kinds of binary shape, whose operands share one anchor along a chain. -/
def chainKinds : List String := [
  "assignment_expression", "augmented_assignment_expression", "assignment_pattern",
  "object_assignment_pattern", "binary_expression"]

/-- Kinds of statements, and of class fields. -/
def statementKinds : List String := [
  "expression_statement", "variable_declaration", "lexical_declaration",
  "function_declaration", "generator_function_declaration", "class_declaration",
  "import_statement", "export_statement",
  "if_statement", "switch_statement", "for_statement", "for_in_statement",
  "while_statement", "do_statement", "try_statement", "with_statement",
  "break_statement", "continue_statement", "return_statement", "throw_statement",
  "empty_statement", "labeled_statement", "debugger_statement", "statement_block",
  "field_definition"]

/-- Kinds of expressions: single tokens first, then compound ones. -/
def expressionKinds : List String := [
  "identifier", "number", "string", "regex", "true", "false", "null",
  "undefined", "this", "super",
  "template_string", "object", "array", "function_expression", "function",
  "arrow_function", "generator_function", "class", "call_expression",
  "new_expression", "member_expression", "subscript_expression",
  "meta_property", "await_expression", "yield_expression", "unary_expression",
  "update_expression", "binary_expression", "assignment_expression",
  "augmented_assignment_expression", "ternary_expression",
  "sequence_expression", "parenthesized_expression"]

def isChainKind (kind : String) : Bool := chainKinds.contains kind
def isStatementKind (kind : String) : Bool := statementKinds.contains kind
def isExpressionKind (kind : String) : Bool := expressionKinds.contains kind

end Construct

end ScriptIndent
