/-!
# ScriptIndent.Path.Glob

Patterns for whole texts.

A star matches any stretch of characters, a question mark any one character, a
bracketed class one of its members, or with an exclamation mark one of the
others.  Any other character matches itself, and so does a bracket that is not
closed.  No character is special to a star: it crosses slashes and line feeds.

In a class a bracket that closes is a member if it stands first.  A hyphen
between two characters makes a range, and a range without members is dropped
together with its ends.
-/

namespace ScriptIndent.Glob

/-- A part of a class: a character, or a hyphen that makes a range. -/
inductive ClassPart where
  | char (c : Char)
  | range
  deriving DecidableEq, Repr

/-- The members of a class: single characters and ranges. -/
inductive Member where
  | char (c : Char)
  | range (low high : Char)
  deriving DecidableEq, Repr

/-- A piece of a pattern. -/
inductive Piece where
  | char (c : Char)
  | any
  | star
  | oneOf (members : List Member)
  | noneOf (members : List Member)
  deriving DecidableEq, Repr

/-! ## classes -/

/-- Split the text of a class at the hyphens that make ranges: each has a
character before it that no other range ends with. -/
def chunksFrom (chunk : List Char) : List Char → List (List Char)
  | [] => [chunk.reverse]
  | [c] => [(c :: chunk).reverse]
  | c :: '-' :: rest =>
    match rest with
    | [] => [('-' :: c :: chunk).reverse]
    | high :: rest => (c :: chunk).reverse :: chunksAfter high rest
  | c :: rest => chunksFrom (c :: chunk) rest
where
  /-- Split the text behind a character that ends a range. -/
  chunksAfter (high : Char) : List Char → List (List Char)
    | [] => [[high]]
    | c :: rest => chunksFrom [high] (c :: rest)

/-- Drop the ranges without members, the last one first. -/
def dropEmptyRanges : List (List Char) → List (List Char)
  | [] => []
  | chunk :: rest =>
    match dropEmptyRanges rest with
    | [] => [chunk]
    | next :: others =>
      match chunk.getLast?, next with
      | some low, high :: tail =>
        if high < low then (chunk.dropLast ++ tail) :: others else chunk :: next :: others
      | _, _ => chunk :: next :: others

/-- Chunks with range hyphens between them. -/
def joinChunks : List (List Char) → List ClassPart
  | [] => []
  | [chunk] => chunk.map .char
  | chunk :: rest => chunk.map .char ++ .range :: joinChunks rest

/-- The parts of a class. -/
def classParts (text : List Char) : List ClassPart :=
  match text with
  | '!' :: c :: rest => joinChunks (dropEmptyRanges (chunksFrom ['!'] (c :: rest)))
  | _ => joinChunks (dropEmptyRanges (chunksFrom [] text))

/-- The members that parts of a class denote. -/
def members : List ClassPart → List Member
  | .char low :: .range :: .char high :: rest => .range low high :: members rest
  | .char c :: rest => .char c :: members rest
  | .range :: rest => .char '-' :: members rest
  | [] => []

/-- The piece that the text of a class denotes. -/
def classPiece (text : List Char) : Piece :=
  match classParts text with
  | .char '!' :: rest => if rest.isEmpty then .any else .noneOf (members rest)
  | parts => .oneOf (members parts)

/-- The length of what may open a class: the exclamation mark, and a bracket
that stands first. -/
def openingLength : List Char → Nat
  | '!' :: ']' :: _ => 2
  | '!' :: _ => 1
  | ']' :: _ => 1
  | _ => 0

/-- Split behind an opening bracket: the text of the class, and what follows
the bracket that closes it. -/
def splitClass? (s : List Char) : Option (List Char × List Char) :=
  let opening := s.take (openingLength s)
  let inner := s.drop (openingLength s)
  match inner.dropWhile (· != ']') with
  | _ :: rest => some (opening ++ inner.takeWhile (· != ']'), rest)
  | [] => none

theorem length_of_splitClass? {s text rest : List Char} (h : splitClass? s = some (text, rest)) :
    rest.length < s.length := by
  simp only [splitClass?] at h
  split at h
  · next c tail heq =>
    simp only [Option.some.injEq, Prod.mk.injEq] at h
    have hd := (List.dropWhile_suffix (l := s.drop (openingLength s)) (· != ']')).length_le
    rw [heq, List.length_cons, List.length_drop] at hd
    rw [← h.2]
    omega
  · simp at h

/-- The pieces of a pattern. -/
def compile : List Char → List Piece
  | [] => []
  | '*' :: rest => .star :: compile rest
  | '?' :: rest => .any :: compile rest
  | '[' :: rest =>
    match h : splitClass? rest with
    | some (text, rest') =>
      have := length_of_splitClass? h
      classPiece text :: compile rest'
    | none => .char '[' :: compile rest
  | c :: rest => .char c :: compile rest
termination_by s => s.length

/-! ## matching -/

def Member.accepts (c : Char) : Member → Bool
  | .char d => c == d
  | .range low high => low ≤ c && c ≤ high

/-- Some tail of a text passes a test, the whole text and the empty one
included. -/
def anyTail (p : List Char → Bool) : List Char → Bool
  | [] => p []
  | c :: rest => p (c :: rest) || anyTail p rest

/-- The pieces match the whole text. -/
def accepts : List Piece → List Char → Bool
  | [], s => s.isEmpty
  | .star :: ps, s => anyTail (accepts ps) s
  | _ :: _, [] => false
  | .any :: ps, _ :: s => accepts ps s
  | .char d :: ps, c :: s => c == d && accepts ps s
  | .oneOf ms :: ps, c :: s => ms.any (·.accepts c) && accepts ps s
  | .noneOf ms :: ps, c :: s => !ms.any (·.accepts c) && accepts ps s

/-- The pattern matches the whole text. -/
def test (pattern text : String) : Bool := accepts (compile pattern.toList) text.toList

end ScriptIndent.Glob
