import ScriptIndent.Host.Script
import ScriptIndent.Language.Registry
import ScriptIndent.Problem

/-!
# ScriptIndent.Source.Reading

From a text to a source.

The text is read in the language of its path.  The script in a host document is
extracted first, and the source is that of the masked document.  A tree with an
error in it makes no source.
-/

namespace ScriptIndent

/-- The parsers at hand: for a grammar and a text, the tree of the text, if the
grammar is there. -/
abbrev Parsers := String → Bytes → Option Node

/-- The outcome of reading a text. -/
structure Reading where
  notices : List Notice
  result : Except Problem Source

namespace Reading

/-- A grammar is not at hand. -/
def noGrammar (grammar : String) : Problem :=
  .unparsed s!"tree-sitter grammar '{grammar}' is not available: no such grammar" none none

/-- The line of the first error in a tree. -/
def errorLine (b : Buffer) (root : Node) : Nat :=
  b.lineOf ((Node.firstError? root).getD root).start

/-- The source of a script and its tree. -/
def ofTree (bytes : Bytes) (root : Node) (path : Option String) (blocks : List ScriptBlock) :
    Except Problem Source :=
  if root.hasError then
    .error (.unparsed "Syntax error" path (some (errorLine (.ofBytes bytes) root)))
  else .ok (.ofTree bytes root path blocks)

/-- Read a script. -/
def script (parsers : Parsers) (grammar : String) (bytes : Bytes) (path : Option String)
    (blocks : List ScriptBlock) : Reading :=
  match parsers grammar bytes with
  | none => ⟨[], .error (noGrammar grammar)⟩
  | some root => ⟨[.grammarLoaded grammar], ofTree bytes root path blocks⟩

/-- Read a text in a language. -/
def inLanguage (parsers : Parsers) (layout : Host.Layout) (language : Language) (bytes : Bytes)
    (path : Option String) : Reading :=
  match language.hostGrammar with
  | none => script parsers language.grammar bytes path []
  | some hostGrammar =>
    match parsers hostGrammar bytes with
    | none => ⟨[], .error (noGrammar hostGrammar)⟩
    | some host =>
      let found := Host.scripts bytes host layout
      let reading := script parsers language.grammar found.masked path found.blocks
      { reading with
        notices := .grammarLoaded hostGrammar :: found.notices ++ reading.notices }

end Reading

/-- Read a text in the language of its path. -/
def Source.read (languages : Languages) (parsers : Parsers) (layout : Host.Layout) (bytes : Bytes)
    (path : Option String) : Reading :=
  Reading.inLanguage parsers layout (languages.ofSource (path.map Path.ofString)) bytes path

end ScriptIndent
