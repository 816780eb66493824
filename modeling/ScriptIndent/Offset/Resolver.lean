import ScriptIndent.Offset.Registry

/-!
# ScriptIndent.Offset.Resolver

From the registry to levels.

The level of a token is found by following its chain of bases and adding up
the levels, until the chain reaches a token whose level is known, a token
without an entry (level 0), or an absolute level.  A chain that comes back to a
token has no level.

Lines are settled from top to bottom.  Once the level of a line is known, all
tokens of the line have that level, so what is measured from the middle of a
line is measured from the line's indentation.
-/

namespace ScriptIndent

/-- A chain of bases that comes back to a token. -/
structure Cycle where
  token : Token
  deriving DecidableEq, Repr

/-- Levels of tokens that are known.  The first level noted for a token stands. -/
abbrev KnownLevels := List (Token × Int)

namespace KnownLevels

def get? (k : KnownLevels) (t : Token) : Option Int := k.lookup t

/-- Note a level for a token that has none. -/
def note (k : KnownLevels) (t : Token) (level : Int) : KnownLevels :=
  if (k.get? t).isSome then k else (t, level) :: k

/-- Note one level for several tokens. -/
def noteAll (k : KnownLevels) (ts : List Token) (level : Int) : KnownLevels :=
  ts.foldl (·.note · level) k

end KnownLevels

namespace Registry

/-- The number of entries for tokens outside a list. -/
def unseen (r : Registry) (seen : List Token) : Nat :=
  r.records.countP fun e => e.token ∉ seen

/-- Meeting a token with an entry for the first time leaves fewer to meet. -/
theorem unseen_lt {r : Registry} {seen : List Token} {t : Token} {e : Entry}
    (he : r.get? t = some e) (ht : t ∉ seen) : r.unseen (t :: seen) < r.unseen seen := by
  obtain ⟨hmem, rfl⟩ := mem_of_get? he
  unfold unseen
  obtain ⟨before, after, hsplit⟩ := List.append_of_mem hmem
  rw [hsplit]
  simp only [List.countP_append, List.countP_cons]
  have mono : ∀ es : List Entry,
      es.countP (fun x => x.token ∉ e.token :: seen) ≤ es.countP fun x => x.token ∉ seen := by
    intro es
    refine List.countP_mono_left fun x _ hx => ?_
    simp only [List.mem_cons, not_or, decide_eq_true_eq] at hx ⊢
    exact hx.2
  have h₁ := mono before
  have h₂ := mono after
  have out : decide (e.token ∉ e.token :: seen) = false := by simp
  have in' : decide (e.token ∉ seen) = true := decide_eq_true ht
  simp only [out, in', if_true, Bool.false_eq_true, if_false]
  omega

/-- Follow the chain of bases from a token, `total` levels having been added up
on the way from the tokens `seen`. -/
def resolveFrom (r : Registry) (known : KnownLevels) (seen : List Token) (total : Int)
    (t : Token) : Except Cycle Int :=
  match known.get? t with
  | some level => .ok (total + level)
  | none =>
    if _ : t ∈ seen then .error ⟨t⟩
    else
      match _ : r.get? t with
      | none => .ok total
      | some e =>
        match e.base with
        | none => .ok (total + e.levels)
        | some base => r.resolveFrom known (t :: seen) (total + e.levels) base
termination_by r.unseen seen
decreasing_by exact unseen_lt ‹_› ‹_›

/-- The level of a token, given the levels that are known. -/
def resolve (r : Registry) (known : KnownLevels) (t : Token) : Except Cycle Int :=
  r.resolveFrom known [] 0 t

end Registry

/-- The expected level of each judged line, by ascending line. -/
abbrev LineLevels := List (Nat × Int)

/-- What settling lines has led to: the levels known by then, and the levels of
the lines unless a cycle stood in the way. -/
structure Settled where
  known : KnownLevels
  result : Except Cycle LineLevels

namespace Registry

/-- Settle lines, given as groups of tokens.  A line without code is passed
over.  A line that starts with a comment or with a token that is not judged has
a level, but none is expected of it. -/
def settle (r : Registry) (known : KnownLevels) : List (List Token) → Settled
  | [] => ⟨known, .ok []⟩
  | line :: rest =>
    match line, line.filter (!·.isComment) with
    | leader :: _, t :: code =>
      match r.resolve known t with
      | .error cycle => ⟨known, .error cycle⟩
      | .ok level =>
        let settled := r.settle (known.noteAll (t :: code) level) rest
        if leader.isComment || r.isIgnored leader then settled
        else { settled with result := settled.result.map ((leader.line, level) :: ·) }
    | _, _ => r.settle known rest

end Registry

/-- A resolver of a source: it remembers the levels it has found.  Levels of
lines are found once. -/
structure Resolver where
  /-- The width of one level. -/
  width : Int
  known : KnownLevels := []
  settled : Option LineLevels := none

namespace Resolver

/-- The level of a token. -/
def resolve (v : Resolver) (r : Registry) (t : Token) : Except Cycle Int := r.resolve v.known t

/-- The expected level of each judged line.  If a cycle stands in the way, the
levels found before it are kept. -/
def lineLevels (v : Resolver) (s : Source) (r : Registry) : Except Cycle LineLevels × Resolver :=
  match v.settled with
  | some levels => (.ok levels, v)
  | none =>
    let outcome := r.settle v.known s.lines
    (outcome.result, { v with known := outcome.known, settled := outcome.result.toOption })

/-- The expected width of the indentation of each judged line. -/
def lineWidths (v : Resolver) (s : Source) (r : Registry) : Except Cycle LineLevels × Resolver :=
  let (levels, v) := v.lineLevels s r
  (levels.map (·.map fun (line, level) => (line, level * v.width)), v)

end Resolver

end ScriptIndent
