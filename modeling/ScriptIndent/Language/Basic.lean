import ScriptIndent.Path.Basic
import ScriptIndent.Path.Glob

/-!
# ScriptIndent.Language.Basic

Languages: the kinds of files that can be checked.

A plain language is parsed with the grammar of the script.  A host language is
parsed with a grammar of its own first, which locates the script in it.
-/

namespace ScriptIndent

structure Language where
  name : String
  /-- The grammar of the script. -/
  grammar : String
  /-- The endings of the files in the language. -/
  extensions : List String
  /-- The grammar that locates the script in a host document. -/
  hostGrammar : Option String := none
  /-- Larger files, by their number of bytes, are not checked. -/
  sizeLimit : Nat := 300000
  /-- Patterns of paths that are not searched. -/
  exclusions : List String := []
  deriving DecidableEq, Repr

namespace Language

/-- The language embeds scripts, rather than being one. -/
def isHost (l : Language) : Bool := l.hostGrammar.isSome

/-- A pattern that begins with this part matches at the top of the tree, too. -/
def anywhere : String := "**/"

/-- A pattern excludes a path: it matches the path, or it does so without
`**/` in front. -/
def patternExcludes (path pattern : String) : Bool :=
  Glob.test pattern path
    || (pattern.startsWith anywhere && Glob.test (pattern.drop anywhere.length).toString path)

/-- A path relative to the directory searched is passed over. -/
def excludes (l : Language) (path : String) : Bool :=
  l.exclusions.any (patternExcludes (Path.ofString path).toString)

/-! ## built-in languages -/

def javascript : Language where
  name := "JavaScript"
  grammar := "javascript"
  extensions := [".js", ".mjs", ".cjs", ".jsx"]
  exclusions := [
    "**/node_modules/**", "**/dist/**", "**/build/**", "**/coverage/**", "**/*.min.js",
    "**/vendor/**"]

def svelte : Language where
  name := "Svelte"
  grammar := "javascript"
  extensions := [".svelte"]
  hostGrammar := some "html"
  exclusions := ["**/node_modules/**", "**/.svelte-kit/**", "**/build/**"]

def html : Language where
  name := "HTML"
  grammar := "javascript"
  extensions := [".html", ".htm"]
  hostGrammar := some "html"
  exclusions := ["**/node_modules/**", "**/dist/**", "**/build/**"]

end Language

end ScriptIndent
