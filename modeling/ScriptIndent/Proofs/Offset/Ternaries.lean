import ScriptIndent.Proofs.Offset.LineLevel
import ScriptIndent.Proofs.Rule.Ternaries

/-!
# ScriptIndent.Proofs.Offset.Ternaries

The lines that the marks and the colons of conditional expressions lead.

```
a
    ? b          one level below the line on which the outermost conditional expression starts,
    : (c         however many are linked to it
    ? d
    : e)
```

All marks and colons of a chain of conditional expressions are indented from the first token of
the outermost one (`Source.ternary_collapses`), so the lines that they lead are one level deeper than
the line of that token (`Source.level_of_ternary`).
-/

namespace ScriptIndent

namespace Source

variable {s : Source} {condition question consequence colon alternative : Node}

/-- The links of a conditional expression lead to one outermost one, itself if it is the condition or
the consequence of another.  The mark and the colon are recorded one level deeper than the first
token of the outermost one, and what stands directly behind each one level deeper than it.  Lines
that the mark or the colon leads are one level deeper than the line of that token. -/
theorem level_of_ternary (h : s.Orderly) (hchosen : s.Chosen) {p : Node.Placed}
    (hp : p ∈ s.root.visited []) (hkind : p.node.kind = "ternary_expression")
    (hchooses : p.node.Chooses s.buffer condition question consequence colon alternative)
    (caseLevels : Int) :
    ∃ (top : Node.Placed) (anchor mark sign first second : Token),
      (∀ other, p.IsOutermost other ↔ other = top) ∧
      (∀ q, p.Occupies "condition" q ∨ p.Occupies "consequence" q → top = p) ∧
      s.firstOfNode? top.node = some anchor ∧ s.firstOfNode? question = some mark ∧
      s.firstOfNode? colon = some sign ∧ s.firstOfNode? consequence = some first ∧
      s.firstOfNode? alternative = some second ∧
      (∀ e ∈ [(⟨mark, some anchor, 1⟩ : Entry), ⟨sign, some anchor, 1⟩, ⟨first, some mark, 1⟩,
        ⟨second, some sign, 1⟩], (s.analyze caseLevels).registry.get? e.token = some e) ∧
      ∀ t ∈ [mark, sign], ∀ levels above rest below level,
        s.checkedLevels (s.analyze caseLevels) = .ok levels →
          s.lines = above ++ (t :: rest) :: below → (t.line, level) ∈ levels →
            ∃ l, s.levelOf? (s.analyze caseLevels) anchor = some l ∧ level = l + 1 := by
  obtain ⟨top, htop⟩ := p.exists_isOutermost
  obtain ⟨a, k, m, anchor, mark, sign, first, second, hak, hkm, hanchor, hmark, hsign, hfirsts⟩ :=
    ternary_collapses h hchosen hp hkind htop hchooses caseLevels
  obtain ⟨htopFirst, hquestion, hcolon, hconsequence, halternative, hentries⟩ := hfirsts
  refine ⟨top, anchor, mark, sign, first, second, fun other => ⟨htop.unique, fun heq => heq ▸ htop⟩,
    fun q hq => (isOutermost_of_occupies h.grammatical hchosen hp hq).unique htop, htopFirst,
    hquestion, hcolon, hconsequence, halternative, hentries, ?_⟩
  intro t ht levels above rest below level hlevels hlines hmem
  have hleader {l : Nat} (hat : s.At l t) (hal : a < l)
      (hentry : (s.analyze caseLevels).registry.get? t = some ⟨t, some anchor, 1⟩) :=
    eq_of_leader h.grammatical hlevels hanchor hat hal hentry hlines hmem
  simp only [List.mem_cons, List.not_mem_nil, or_false] at ht
  rcases ht with rfl | rfl
  · exact hleader hmark hak (hentries ⟨t, some anchor, 1⟩ (by simp))
  · exact hleader hsign (by omega) (hentries ⟨t, some anchor, 1⟩ (by simp))

/-! ## a conditional expression in parentheses -/

/-- The expression `c?d:e`, over three lines. -/
def innerChoice : Node :=
  ⟨"ternary_expression", true, false, false, [], 7, 14,
    [⟨"identifier", true, false, false, ["condition"], 7, 8, []⟩,
      ⟨"?", false, false, false, [], 9, 10, []⟩,
      ⟨"identifier", true, false, false, ["consequence"], 10, 11, []⟩,
      ⟨":", false, false, false, [], 12, 13, []⟩,
      ⟨"identifier", true, false, false, ["alternative"], 13, 14, []⟩]⟩

def wrappedChoice : Node :=
  ⟨"parenthesized_expression", true, false, false, ["alternative"], 6, 15,
    [⟨"(", false, false, false, [], 6, 7, []⟩, innerChoice, ⟨")", false, false, false, [], 14, 15, []⟩]⟩

/-- The expression `a?b:(c?d:e)`, over five lines. -/
def outerChoice : Node :=
  ⟨"ternary_expression", true, false, false, [], 0, 15,
    [⟨"identifier", true, false, false, ["condition"], 0, 1, []⟩,
      ⟨"?", false, false, false, [], 2, 3, []⟩,
      ⟨"identifier", true, false, false, ["consequence"], 3, 4, []⟩,
      ⟨":", false, false, false, [], 5, 6, []⟩, wrappedChoice]⟩

def choiceStatement : Node :=
  ⟨"expression_statement", true, false, false, [], 0, 15, [outerChoice]⟩

/-- A program of five lines, all but the first led by marks and colons. -/
def choiceSource : Source :=
  .ofTree "a\n?b\n:(c\n?d\n:e)".toUTF8.data
    ⟨"program", true, false, false, [], 0, 15, [choiceStatement]⟩ none []

theorem innerChoice_chooses : innerChoice.Chooses choiceSource.buffer
    ⟨"identifier", true, false, false, ["condition"], 7, 8, []⟩
    ⟨"?", false, false, false, [], 9, 10, []⟩
    ⟨"identifier", true, false, false, ["consequence"], 10, 11, []⟩
    ⟨":", false, false, false, [], 12, 13, []⟩
    ⟨"identifier", true, false, false, ["alternative"], 13, 14, []⟩ where
  parts_eq := rfl
  condition := ⟨rfl, Node.mem_codeChildren.2 ⟨by simp [innerChoice], rfl, by decide⟩⟩
  question := by decide +kernel
  consequence := ⟨rfl, Node.mem_codeChildren.2 ⟨by simp [innerChoice], rfl, by decide⟩⟩
  colon := by decide +kernel
  alternative := ⟨rfl, Node.mem_codeChildren.2 ⟨by simp [innerChoice], rfl, by decide⟩⟩

theorem outerChoice_chooses : outerChoice.Chooses choiceSource.buffer
    ⟨"identifier", true, false, false, ["condition"], 0, 1, []⟩
    ⟨"?", false, false, false, [], 2, 3, []⟩
    ⟨"identifier", true, false, false, ["consequence"], 3, 4, []⟩
    ⟨":", false, false, false, [], 5, 6, []⟩ wrappedChoice where
  parts_eq := rfl
  condition := ⟨rfl, Node.mem_codeChildren.2 ⟨by simp [outerChoice], rfl, by decide⟩⟩
  question := by decide +kernel
  consequence := ⟨rfl, Node.mem_codeChildren.2 ⟨by simp [outerChoice], rfl, by decide⟩⟩
  colon := by decide +kernel
  alternative := ⟨rfl, Node.mem_codeChildren.2 ⟨by simp [outerChoice], rfl, by decide⟩⟩

theorem choiceSource_orderly : choiceSource.Orderly := by
  refine .of_passes (by decide +kernel) ?_
  have hnodes : choiceSource.root.nodes.filter Node.isRuled =
      [choiceSource.root, outerChoice, innerChoice] := rfl
  simp only [hnodes, List.forall_mem_cons]
  exact ⟨.of_shape .program (by decide) trivial,
    .of_shape .ternary (by decide) outerChoice_chooses.ternaryShape,
    .of_shape .ternary (by decide) innerChoice_chooses.ternaryShape, by simp⟩

theorem choiceSource_chosen : choiceSource.Chosen := by
  intro place hplace hkind
  have hplaces : (choiceSource.root.visited []).filter (·.node.kind == "ternary_expression") =
      [⟨outerChoice, [choiceStatement, choiceSource.root]⟩,
        ⟨innerChoice, [wrappedChoice, outerChoice, choiceStatement, choiceSource.root]⟩] := rfl
  have hmem : place ∈ (choiceSource.root.visited []).filter (·.node.kind == "ternary_expression") :=
    List.mem_filter.2 ⟨hplace, beq_iff_eq.2 hkind⟩
  rw [hplaces] at hmem
  simp only [List.mem_cons, List.not_mem_nil, or_false] at hmem
  rcases hmem with rfl | rfl
  · exact ⟨_, _, _, _, _, outerChoice_chooses⟩
  · exact ⟨_, _, _, _, _, innerChoice_chooses⟩

theorem sorted_choiceSource : (choiceSource.tokens.toList ++ choiceSource.comments).Pairwise
    fun a b => decide (a.start ≤ b.start) = true := by
  decide +kernel

theorem checkedLevels_choiceSource :
    choiceSource.checkedLevels (choiceSource.analyze 1) =
      .ok [(1, 0), (2, 1), (3, 1), (4, 1), (5, 1)] :=
  checkedLevels_eq_ok sorted_choiceSource (by decide +kernel) (by decide +kernel)
    (by decide +kernel)

theorem innerChoice_isOutermost :
    Node.Placed.IsOutermost
      ⟨innerChoice, [wrappedChoice, outerChoice, choiceStatement, choiceSource.root]⟩
      ⟨outerChoice, [choiceStatement, choiceSource.root]⟩ := by
  refine ⟨.single ⟨rfl, rfl, outerChoice_chooses.alternative⟩, fun q hlink => ?_⟩
  obtain rfl : ⟨choiceStatement, [choiceSource.root]⟩ = q := Option.some.inj hlink.1
  exact absurd hlink.2.1 (by decide)

/-- The second mark is one level below the first line, like the first one. -/
theorem level_of_ternary_innerChoice :
    ∃ anchor mark : Token, (anchor.value, mark.value, mark.line) = ("a", "?", 4) ∧
      (choiceSource.analyze 1).registry.get? mark = some ⟨mark, some anchor, 1⟩ ∧
      ∃ l, choiceSource.levelOf? (choiceSource.analyze 1) anchor = some l ∧ 1 = l + 1 := by
  have hplace : ⟨innerChoice, [wrappedChoice, outerChoice, choiceStatement, choiceSource.root]⟩ ∈
      choiceSource.root.visited [] := List.mem_of_getElem? (i := 6) rfl
  obtain ⟨top, anchor, mark, sign, first, second, htop, -, htopFirst, hquestion, -, -, -, hentries,
    hlevel⟩ :=
    level_of_ternary choiceSource_orderly choiceSource_chosen hplace rfl innerChoice_chooses 1
  obtain rfl := (htop _).1 innerChoice_isOutermost
  have hanchor : choiceSource.firstOfNode? outerChoice =
      some ⟨0, 1, .identifier, "a", 1, 0, 1, some 0⟩ := by decide +kernel
  have hmark : choiceSource.firstOfNode? ⟨"?", false, false, false, [], 9, 10, []⟩ =
      some ⟨9, 10, .punctuator, "?", 4, 0, 4, some 6⟩ := by decide +kernel
  obtain rfl := Option.mem_unique hanchor htopFirst
  obtain rfl := Option.mem_unique hmark hquestion
  have hlines : choiceSource.lines =
      [[⟨0, 1, .identifier, "a", 1, 0, 1, some 0⟩],
        [⟨2, 3, .punctuator, "?", 2, 0, 2, some 1⟩, ⟨3, 4, .identifier, "b", 2, 1, 2, some 2⟩],
        [⟨5, 6, .punctuator, ":", 3, 0, 3, some 3⟩, ⟨6, 7, .punctuator, "(", 3, 1, 3, some 4⟩,
          ⟨7, 8, .identifier, "c", 3, 2, 3, some 5⟩]] ++
      [⟨9, 10, .punctuator, "?", 4, 0, 4, some 6⟩, ⟨10, 11, .identifier, "d", 4, 1, 4, some 7⟩] ::
      [[⟨12, 13, .punctuator, ":", 5, 0, 5, some 8⟩, ⟨13, 14, .identifier, "e", 5, 1, 5, some 9⟩,
        ⟨14, 15, .punctuator, ")", 5, 2, 5, some 10⟩]] := by
    rw [lines_eq_groupsFrom sorted_choiceSource]
    decide +kernel
  exact ⟨_, _, rfl, hentries ⟨_, _, 1⟩ List.mem_cons_self,
    hlevel _ List.mem_cons_self _ _ _ _ _ checkedLevels_choiceSource hlines
      (show (4, 1) ∈ _ by simp)⟩

end Source

end ScriptIndent
