import ScriptIndent.Rule.Visit

/-!
# ScriptIndent.Proofs.Rule.Unwrap

The pairs of parentheses around an expression, as a list.

```
( ( ( x ) )         the opening ones run to the left, the closing ones to the right
2 1 0   0 1         and the shorter run ends the pairs
```

The pairs are found going outwards on both sides at once (`Rule.unwrapFrom`).  Each side is a run of
its own, and the pairs are the two runs side by side (`wrappingParentheses_eq`).
-/

namespace ScriptIndent.Rule

/-- The opening parentheses directly below an index, the nearest first. -/
def openersBelow (tokens : Array Token) : Nat → List Token
  | 0 => []
  | i + 1 =>
    match tokens[i]?.filter Token.isOpeningParen with
    | some t => t :: openersBelow tokens i
    | none => []

/-- The closing parentheses from an index on. -/
def closersFrom (tokens : Array Token) (i : Nat) : List Token :=
  if h : i < tokens.size then
    if tokens[i].isClosingParen then tokens[i] :: closersFrom tokens (i + 1) else []
  else []
termination_by tokens.size - i

/-- The pairs of parentheses that wrap a node, the innermost first. -/
def wrappers (s : Source) (n : Node) : List (Token × Token) :=
  match s.first? n, s.last? n with
  | some start, some stop =>
    (openersBelow s.tokens (start.index.getD 0)).zip
      (closersFrom s.tokens (stop.index.elim 0 (· + 1)))
  | _, _ => []

/-- What a pair of parentheses wraps is indented from it, and its closing
parenthesis is flush with the opening one. -/
def unwrap (inner : Token) : List (Token × Token) → List Entry
  | [] => []
  | (left, right) :: rest =>
    Entry.offsets [inner] 1 (some left) ++ Entry.offsets [right] 0 (some left) ++ unwrap left rest

variable {tokens : Array Token}

private theorem closersFrom_eq_match (j : Nat) : closersFrom tokens j =
    match tokens[j]?.filter Token.isClosingParen with
    | some t => t :: closersFrom tokens (j + 1)
    | none => [] := by
  conv =>
    lhs
    unfold closersFrom
  split
  · next h =>
    rw [Array.getElem?_eq_getElem h, Option.filter_some]
    split <;> rfl
  · next h =>
    rw [Array.getElem?_eq_none (Nat.not_lt.1 h)]
    rfl

/-- The pairs that are found going outwards are those of the two runs. -/
theorem unwrapFrom_eq (inner : Token) (i j : Nat) : unwrapFrom tokens inner i j =
    unwrap inner ((openersBelow tokens i).zip (closersFrom tokens j)) := by
  induction i generalizing inner j with
  | zero => rfl
  | succ i ih =>
    rw [unwrapFrom, openersBelow, closersFrom_eq_match]
    cases tokens[i]?.filter Token.isOpeningParen with
    | none => rfl
    | some left =>
      cases tokens[j]?.filter Token.isClosingParen with
      | none => rfl
      | some right =>
        dsimp only
        rw [ih, List.zip_cons_cons, unwrap]

/-- The parentheses around a node are placed pair by pair. -/
theorem wrappingParentheses_eq (s : Source) (n : Node) : wrappingParentheses s n =
    match s.first? n with
    | some start => unwrap start (wrappers s n)
    | none => [] := by
  rw [wrappingParentheses, wrappers]
  cases s.first? n with
  | none => rfl
  | some start =>
    cases s.last? n with
    | none => rfl
    | some stop => exact unwrapFrom_eq start _ _

end ScriptIndent.Rule
