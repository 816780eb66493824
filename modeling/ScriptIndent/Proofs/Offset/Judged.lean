import ScriptIndent.Proofs.Offset.LineByLine
import ScriptIndent.Proofs.Offset.LineLevel
import ScriptIndent.Proofs.Rule.Judged
import ScriptIndent.Proofs.Stream.Lossless
import ScriptIndent.Proofs.Tree.Visited

/-!
# ScriptIndent.Proofs.Offset.Judged

Exactly the lines of nodes without a rule, and those of comments, are left unjudged.

```
b           judged
=<i         judged: it starts with a token of the assignment, though not all its tokens are
/>          not judged: the element has no rule, from its `<` to its `/>`
d           judged
// c        not judged: a comment
```

A walk that goes through visits the nodes that can be reached (`Node.IsWalk`), each once.  What it
leaves unjudged are the tokens that overlap a visited node without a rule (`Source.isIgnored_iff`),
and a line has a level if and only if it starts with another code token
(`Registry.SettlesTo.exists_level_iff`).
-/

namespace ScriptIndent

namespace Registry

variable {r : Registry} {lines : List (List Token)} {k : KnownLevels} {levels : LineLevels}

/-- A line has a level if and only if it is judged. -/
theorem SettlesTo.exists_level_iff (h : r.SettlesTo [] lines k levels)
    (hnodup : (lines.flatMap codeOf).Nodup) {line : Nat} :
    (∃ level, (line, level) ∈ levels) ↔ ∃ above t, r.Judges lines above t ∧ t.line = line := by
  constructor
  · rintro ⟨level, hlevel⟩
    obtain ⟨above, t, hjudges, hline, -⟩ := h.mem_iff.1 hlevel
    exact ⟨above, t, hjudges, hline⟩
  · rintro ⟨above, t, ⟨rest, below, rfl, hcode, hjudged⟩, hline⟩
    have hleads : codeOf (t :: rest) = t :: codeOf rest := by simp [codeOf, hcode]
    have ht : t ∈ codeOf (t :: rest) := hleads ▸ List.mem_cons_self
    have hon : standsOn (above ++ (t :: rest) :: below) t = true :=
      standsOn_iff.2 ⟨t :: rest, by simp, ht⟩
    -- a leader of code has the level to which its line adds up
    obtain ⟨level, -, hlevel⟩ := h.remembers.known hon
    obtain ⟨above', line', below', first, code, hlines, hcode', ht', hfirst⟩ :=
      hlevel.exists_line hon
    obtain ⟨rfl, rfl⟩ := eq_of_standsOn hnodup hlines ht ht'
    obtain ⟨rfl, -⟩ := List.cons_eq_cons.1 (hleads.symm.trans hcode')
    exact ⟨level, h.mem_iff.2 ⟨above, t, ⟨rest, below, rfl, hcode, hjudged⟩, hline, hfirst⟩⟩

end Registry

namespace Source

open Registry

/-- If the walk over a nested tree with disjoint tokens goes through, it visits the nodes that can
be reached, each once, in the order of their addresses.  A token is not judged if and only if it
overlaps a visited node without a rule, and a line has a level if and only if it starts with a code
token that is judged. -/
theorem judged_of_walk (s : Source) (caseLevels width : Int) (hnested : s.root.Nested)
    (hdisjoint : s.tokens.toList.Pairwise (·.stop ≤ ·.start))
    (hfault : (s.analyze caseLevels).fault = none) :
    s.analyze caseLevels = (s.root.visited []).foldl (Analysis.visit s caseLevels) {} ∧
      (∃ addresses, Node.IsWalk [] s.root addresses) ∧
      (∀ t ∈ s.tokens, (s.analyze caseLevels).registry.isIgnored t = true ↔
        ∃ place ∈ s.root.visited [], Construct.ofKind? place.node.kind = none ∧
          place.node.start < t.stop ∧ t.start < place.node.stop) ∧
      ∀ levels,
        (({ width } : Resolver).lineLevels s (s.analyze caseLevels).registry).1 = .ok levels →
        ∀ line, (∃ level, (line, level) ∈ levels) ↔
          ∃ t rest, t :: rest ∈ s.lines ∧ t.line = line ∧ t.isComment = false ∧
            (s.analyze caseLevels).registry.isIgnored t = false := by
  have hordered := ordered_of_disjoint hnested hdisjoint
  refine ⟨Analysis.visitAll_eq_foldl hfault, Node.exists_isWalk [] s.root, fun t ht => ?_,
    fun levels hlevels line => ?_⟩
  · obtain ⟨k, hk⟩ := Array.getElem?_of_mem ht
    exact isIgnored_iff hordered hfault hk
  · have hsettle := Registry.settle_settlesTo (r := (s.analyze caseLevels).registry)
      Registry.remembers_nil (show (([] ++ s.lines).flatMap codeOf).Nodup from s.nodup_lines)
    change ((s.analyze caseLevels).registry.settle [] s.lines).result = .ok levels at hlevels
    rw [hlevels] at hsettle
    rw [hsettle.exists_level_iff s.nodup_lines]
    constructor
    · rintro ⟨above, t, ⟨rest, below, hlines, hcode, hjudged⟩, hline⟩
      exact ⟨t, rest, by simp [hlines], hline, hcode, hjudged⟩
    · rintro ⟨t, rest, hmem, hline, hcode, hjudged⟩
      obtain ⟨above, below, hlines⟩ := List.append_of_mem hmem
      exact ⟨above, t, ⟨rest, below, hlines, hcode, hjudged⟩, hline⟩

/-! ## an element and a comment -/

def markupElement : Node :=
  ⟨"jsx_self_closing_element", true, false, false, ["right"], 3, 8,
    [⟨"<", false, false, false, [], 3, 4, []⟩,
      ⟨"identifier", true, false, false, ["name"], 4, 5, []⟩,
      ⟨"/>", false, false, false, [], 6, 8, []⟩]⟩

def markupAssignment : Node :=
  ⟨"assignment_expression", true, false, false, [], 0, 8,
    [⟨"identifier", true, false, false, ["left"], 0, 1, []⟩,
      ⟨"=", false, false, false, [], 2, 3, []⟩, markupElement]⟩

/-- A program with an element, which has no rule, as an operand, and a comment at its end. -/
def markupSource : Source :=
  .ofTree "b\n=<i\n/>\nd\n// c".toUTF8.data
    ⟨"program", true, false, false, [], 0, 15,
      [⟨"expression_statement", true, false, false, [], 0, 8, [markupAssignment]⟩,
        ⟨"expression_statement", true, false, false, [], 9, 10,
          [⟨"identifier", true, false, false, [], 9, 10, []⟩]⟩,
        ⟨"comment", true, false, false, [], 11, 15, []⟩]⟩ none []

theorem lineLevels_markupSource :
    (({ width := 2 } : Resolver).lineLevels markupSource (markupSource.analyze 1).registry).1 =
      .ok [(1, 0), (2, 1), (4, 0)] := by
  have hsorted : (markupSource.tokens.toList ++ markupSource.comments).Pairwise
      fun a b => decide (a.start ≤ b.start) = true := by decide +kernel
  have hsettle : ((markupSource.analyze 1).registry.settle []
      (groupsFrom 0 [] (markupSource.tokens.toList ++ markupSource.comments))).result =
        .ok [(1, 0), (2, 1), (4, 0)] := by decide +kernel
  rw [← lines_eq_groupsFrom hsorted] at hsettle
  exact hsettle

/-- The element is visited, but nothing in it.  The line that it ends on and the line of the comment
are not judged. -/
theorem judged_of_walk_markupSource :
    ∃ addresses, Node.IsWalk [] markupSource.root addresses ∧ [0, 0, 2] ∈ addresses ∧
      [0, 0, 2, 1] ∉ addresses ∧
      (markupSource.analyze 1).registry.isIgnored
        ⟨6, 8, .punctuator, "/>", 3, 0, 3, some 4⟩ = true ∧
      ∀ line, line ∈ [1, 2, 4] ↔ ∃ t rest, t :: rest ∈ markupSource.lines ∧ t.line = line ∧
        t.isComment = false ∧ (markupSource.analyze 1).registry.isIgnored t = false := by
  obtain ⟨-, ⟨addresses, hwalk⟩, hignored, hjudged⟩ := judged_of_walk markupSource 1 2
    (Node.nested_of_all (by decide +kernel)) (by decide +kernel) (by decide +kernel)
  refine ⟨addresses, hwalk, hwalk.mem_iff.2 ?_, fun h => ?_, (hignored _ ?_).2 ?_, fun line => ?_⟩
  · exact .child rfl rfl rfl rfl (.child rfl rfl rfl rfl (.child rfl rfl rfl rfl (.itself rfl)))
  · obtain - | ⟨-, -, get, -, h⟩ := hwalk.mem_iff.1 h
    obtain rfl := Option.some.inj get
    obtain - | ⟨-, -, get, -, h⟩ := h
    obtain rfl := Option.some.inj get
    obtain - | ⟨-, -, get, -, h⟩ := h
    obtain rfl := Option.some.inj get
    simpa using h.eq_nil (by decide)
  · exact Array.mem_of_getElem? (i := 4) (by decide +kernel)
  · exact ⟨⟨markupElement, _⟩, List.mem_of_getElem? (i := 4) rfl, by decide, by decide, by decide⟩
  · rw [← hjudged _ lineLevels_markupSource line]
    simp [exists_or]

end Source

end ScriptIndent
