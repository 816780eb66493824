import ScriptIndent.Environment
import ScriptIndent.Text.Lowercase

/-!
# ScriptIndent.Output.Symbols

The symbols in what the program prints, in a rich and a plain set.

A preference decides which set is used; without one, the environment and the
encoding of the output tell whether the rich set is likely to show.
-/

namespace ScriptIndent

/-- Which set of symbols is asked for. -/
inductive SymbolChoice where
  /-- The rich set. -/
  | unicode
  /-- The plain set. -/
  | ascii
  /-- The rich set if it is likely to show. -/
  | auto
  deriving DecidableEq, Repr

namespace SymbolChoice

def name : SymbolChoice → String
  | .unicode => "unicode"
  | .ascii => "ascii"
  | .auto => "auto"

def ofName? (name : String) : Option SymbolChoice :=
  if name = "unicode" then some .unicode
  else if name = "ascii" then some .ascii
  else if name = "auto" then some .auto
  else none

theorem ofName?_name (c : SymbolChoice) : ofName? c.name = some c := by cases c <;> rfl

/-- The choice of a name; a name that is not known leaves it to what shows. -/
def named (name : String) : SymbolChoice := (ofName? name).getD .auto

end SymbolChoice

/-- Symbols for status, structure and visible white space. -/
structure Symbols where
  pass : String
  fail : String
  bullet : String
  space : String
  tab : String
  deriving DecidableEq, Repr

namespace Symbols

def unicode : Symbols := ⟨"✓", "✗", "•", "·", "→"⟩

def ascii : Symbols := ⟨"[OK]", "[X]", "*", ".", ">"⟩

/-! ## detection -/

/-- One text occurs in another. -/
def occurs (part : List Char) : List Char → Bool
  | [] => part.isEmpty
  | c :: rest => part.isPrefixOf (c :: rest) || occurs part rest

/-- A variable that says yes. -/
def saysYes (e : Environment) (name : String) : Bool :=
  ["1", "true", "yes"].contains (Text.lowercase (e.value name))

/-- A locale that names UTF-8. -/
def namesUtf8 (e : Environment) (name : String) : Bool :=
  let locale := (Text.lowercase (e.value name)).toList
  occurs "utf-8".toList locale || occurs "utf8".toList locale

/-- An encoding, by its name, that lacks the rich symbols. -/
def lacksSymbols (encoding : String) : Bool :=
  let letters := (Text.lowercase encoding).toList.filter fun c => c != '-' && c != '_'
  "cp".toList.isPrefixOf letters
    || ["ascii", "latin1", "iso88591"].contains (String.ofList letters)

/-- The terminals that are known to show the rich symbols. -/
def richTerminals : List String := ["vscode", "iTerm.app", "Apple_Terminal", "Hyper"]

/-- The rich symbols are likely to show, on an output with a given encoding. -/
def supported (e : Environment) (encoding : Option String) : Bool :=
  let encoding := encoding.filter (· != "")
  if saysYes e "ESINDENT_ASCII_ONLY" then false
  else if saysYes e "ESINDENT_UNICODE" then true
  else if encoding.any lacksSymbols then false
  else
    namesUtf8 e "LANG" || namesUtf8 e "LC_ALL"
      || richTerminals.contains (e.value "TERM_PROGRAM")
      || (e.given? "WT_SESSION").isSome
      || encoding.any fun name => occurs "utf".toList (Text.lowercase name).toList

/-- The symbols for a choice, where the rich set is supported or not. -/
def choose (choice : SymbolChoice) (supported : Bool) : Symbols :=
  match choice with
  | .unicode => unicode
  | .ascii => ascii
  | .auto => if supported then unicode else ascii

/-! ## visible white space -/

/-- A character, made visible if it indents. -/
def visibleChar (s : Symbols) (c : Char) : String :=
  if c == ' ' then s.space else if c == '\t' then s.tab else String.singleton c

/-- A text with its spaces and tabs made visible. -/
def visible (s : Symbols) (text : List Char) : String :=
  String.join (text.map s.visibleChar)

end Symbols

end ScriptIndent
