/-!
# ScriptIndent.Notice

Notices: what the program tells about its work beside its results.
-/

namespace ScriptIndent

/-- How much a notice matters. -/
inductive Weight where
  | debug
  | info
  | warning
  deriving DecidableEq, Repr

def Weight.name : Weight → String
  | .debug => "DEBUG"
  | .info => "INFO"
  | .warning => "WARNING"

/-- Something worth telling. -/
inductive Notice where
  /-- A node has no rule. -/
  | noRule (nodeKind : String) (line : Nat)
  /-- A script element holds something other than a script. -/
  | foreignScript (line : Nat)
  | grammarLoaded (grammar : String)
  | excluded (path : String)
  | checkFailed (path : String)
  | tooLarge (path : String) (bytes limit : Nat)
  | malformedConfiguration (path : String)
  deriving DecidableEq, Repr

namespace Notice

def weight : Notice → Weight
  | .tooLarge .. => .info
  | .malformedConfiguration _ => .warning
  | _ => .debug

/-- The part of the program that gives a notice. -/
def origin : Notice → String
  | .noRule .. | .tooLarge .. => "esindent.checker"
  | .foreignScript _ => "esindent.core.parsing.languages.html"
  | .grammarLoaded _ => "esindent.core.parsing.provider"
  | .excluded _ | .checkFailed _ => "esindent.cli"
  | .malformedConfiguration _ => "esindent.config"

def message : Notice → String
  | .noRule nodeKind line =>
    s!"No indentation rule for {nodeKind} at line {line}; ignoring subtree"
  | .foreignScript line => s!"Skipping non-JavaScript script block at line {line}"
  | .grammarLoaded grammar => s!"Loaded tree-sitter parser for {grammar}"
  | .excluded path => s!"Excluded {path}"
  | .checkFailed path => s!"Failed to check {path}"
  | .tooLarge path bytes limit => s!"Skipping {path}: {bytes} bytes exceeds {limit}"
  | .malformedConfiguration path => s!"Ignoring malformed config {path}"

/-- The line that a notice takes in the log. -/
def logLine (n : Notice) : String := s!"{n.weight.name} {n.origin}: {n.message}"

/-- Notices with each grammar loaded once, given those loaded before. -/
def loadedOnce (loaded : List String) : List Notice → List Notice
  | [] => []
  | .grammarLoaded grammar :: rest =>
    if loaded.contains grammar then loadedOnce loaded rest
    else .grammarLoaded grammar :: loadedOnce (grammar :: loaded) rest
  | n :: rest => n :: loadedOnce loaded rest

end Notice

end ScriptIndent
