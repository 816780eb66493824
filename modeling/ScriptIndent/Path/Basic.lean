/-!
# ScriptIndent.Path.Basic

Paths in normal form.

A path is a root, which is empty, one slash, or exactly two slashes, and a list
of names.  Empty names and single dots vanish; double dots stay.  The path
without root and names is written as a dot.
-/

namespace ScriptIndent

structure Path where
  /-- What the path starts with: nothing, `/`, or `//`. -/
  root : String
  names : List String
  deriving DecidableEq, Repr

namespace Path

/-- The root with which a text begins.  Three or more slashes are as good as
one. -/
def rootOf : List Char → String
  | '/' :: '/' :: '/' :: _ => "/"
  | '/' :: '/' :: _ => "//"
  | '/' :: _ => "/"
  | _ => ""

/-- The names in a text. -/
def namesOf (s : String) : List String :=
  ((s.toList.splitOn '/').map String.ofList).filter fun name => name != "" && name != "."

/-- The path that a text denotes. -/
def ofString (s : String) : Path := ⟨rootOf s.toList, namesOf s⟩

/-- A path as text. -/
def toString (p : Path) : String :=
  if p.root == "" && p.names.isEmpty then "." else p.root ++ "/".intercalate p.names

instance : ToString Path := ⟨toString⟩

/-- A path taken relative to another. -/
def append (p q : Path) : Path := if q.root == "" then ⟨p.root, p.names ++ q.names⟩ else q

instance : Append Path := ⟨append⟩

/-- A path with one name more. -/
def child (p : Path) (name : String) : Path := { p with names := p.names ++ [name] }

/-- The last name, empty if there is none. -/
def name (p : Path) : String := p.names.getLastD ""

/-- The ending of a name: what stands from its last dot on, if that dot is
neither its first nor its last character. -/
def nameSuffix (name : List Char) : List Char :=
  let ending := name.reverse.takeWhile (· != '.')
  let suffix := '.' :: ending.reverse
  if ending.isEmpty || name.length ≤ suffix.length then [] else suffix

/-- The ending of the last name. -/
def suffix (p : Path) : String := String.ofList (nameSuffix p.name.toList)

end Path

end ScriptIndent
