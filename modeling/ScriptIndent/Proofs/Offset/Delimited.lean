import ScriptIndent.Proofs.Offset.LineLevel
import ScriptIndent.Proofs.Rule.Delimited

/-!
# ScriptIndent.Proofs.Offset.Delimited

The lines that the elements of a list lead.

```
f(               the line of the opening delimiter
    (x)          each element that leads a line is one level deeper,
)                and a closing delimiter that leads one is level with it
```

In the end the first token of each element is placed relative to the opening delimiter, and so is the
closing delimiter, whatever stands in the list (`Source.Delimits.get?_element`,
`Source.Delimits.get?_closing`).  The clauses of a switch statement are a list, too, with levels of
their own (`Source.level_of_list`).
-/

namespace ScriptIndent

namespace Source

variable {s : Source} {list opening closing : Node} {items ancestors : List Node}

/-- Each element of a list between delimiters is some levels deeper than the opening delimiter, and
the closing one is flush with it.  So are the lines that they lead. -/
theorem level_of_list (h : s.Orderly) (hplace : ⟨list, ancestors⟩ ∈ s.root.visited [])
    (harranged : list.Arranged ancestors)
    (hlist : list.Delimited s.buffer opening closing items) (caseLevels : Int) :
    ∃ left right, s.firstOfNode? opening = some left ∧ s.firstOfNode? closing = some right ∧
      (∀ c ∈ list.codeChildren, ∃ t, s.firstOfNode? c = some t ∧
        (s.analyze caseLevels).registry.get? t =
          some ⟨t, some left, Node.elementLevels caseLevels list⟩) ∧
      (s.analyze caseLevels).registry.get? right = some ⟨right, some left, 0⟩ ∧
      ∃ l, s.levelOf? (s.analyze caseLevels) left = some l ∧
        ∀ levels above t rest below level, s.checkedLevels (s.analyze caseLevels) = .ok levels →
          s.lines = above ++ (t :: rest) :: below → (t.line, level) ∈ levels →
            ((∃ c ∈ list.codeChildren, s.firstOfNode? c = some t) →
              level = l + Node.elementLevels caseLevels list) ∧
            (t = right → level = l) := by
  have g := h.grammatical
  have hcompound := harranged.isCompound
  obtain ⟨construct, hrule⟩ := harranged.exists_rule
  obtain ⟨i, j, hn⟩ := (found_of_visited g hplace).exists_stands_of_kind (by simp [hrule])
    harranged.not_mem_literalPartKinds
  obtain ⟨m, left, right, rfl, hdelimits, hleft, hright⟩ := hn.exists_delimits hcompound hlist
  have helement {c : Node} (hc : c ∈ list.codeChildren) :=
    hdelimits.get?_element hlist harranged h hplace caseLevels hc
  have hclosing := hdelimits.get?_closing hlist harranged h hplace caseLevels
  obtain ⟨l, hl⟩ := exists_levelOf? g caseLevels (Array.mem_of_getElem? hdelimits.left_at)
  refine ⟨left, right, hleft, hright, fun c hc => ?_, hclosing, l, hl, ?_⟩
  · obtain ⟨_, t, -, -, hfirst, hentry⟩ := helement hc
    exact ⟨t, hfirst, hentry⟩
  intro levels above t rest below level hlevels hlines hmem
  refine ⟨fun ⟨c, hc, hfirst⟩ => ?_, fun heq => ?_⟩
  · obtain ⟨a, t', hka, ht, hfirst', hentry⟩ := helement hc
    obtain rfl := Option.mem_unique hfirst hfirst'
    obtain ⟨l', hl', rfl⟩ :=
      eq_of_leader g hlevels hdelimits.left_at ht hka hentry hlines hmem
    rw [Option.mem_unique hl hl']
  · subst heq
    obtain ⟨l', hl', rfl⟩ := eq_of_leader g hlevels hdelimits.left_at hdelimits.right_at hdelimits.lt
      hclosing hlines hmem
    rw [Option.mem_unique hl hl', Int.add_zero]

/-! ## an argument in parentheses of its own -/

def groupedArgument : Node :=
  ⟨"parenthesized_expression", true, false, false, [], 3, 6,
    [⟨"(", false, false, false, [], 3, 4, []⟩, ⟨"identifier", true, false, false, [], 4, 5, []⟩,
      ⟨")", false, false, false, [], 5, 6, []⟩]⟩

def openingParen : Node := ⟨"(", false, false, false, [], 1, 2, []⟩

def closingParen : Node := ⟨")", false, false, false, [], 7, 8, []⟩

def groupedArguments : Node :=
  ⟨"arguments", true, false, false, ["arguments"], 1, 8,
    [openingParen, groupedArgument, closingParen]⟩

def groupedCallee : Node := ⟨"identifier", true, false, false, ["function"], 0, 1, []⟩

def groupedCall : Node :=
  ⟨"call_expression", true, false, false, [], 0, 8, [groupedCallee, groupedArguments]⟩

def groupedStatement : Node :=
  ⟨"expression_statement", true, false, false, [], 0, 8, [groupedCall]⟩

/-- A call of three lines: what is visited in its argument places both pairs of parentheses. -/
def groupedSource : Source :=
  .ofTree "f(\n(x)\n)".toUTF8.data
    ⟨"program", true, false, false, [], 0, 8, [groupedStatement]⟩ none []

theorem groupedArguments_delimited :
    groupedArguments.Delimited groupedSource.buffer openingParen closingParen [groupedArgument] where
  parts_eq := rfl
  delimiters := ⟨("(", ")"), by decide, by decide +kernel, by decide +kernel⟩
  item_cases c hc := by
    obtain rfl := List.mem_singleton.1 hc
    exact .inl ⟨rfl, by decide⟩
  begins hkind := absurd hkind (by decide)

theorem groupedSource_orderly : groupedSource.Orderly := by
  refine .of_passes (by decide +kernel) ?_
  have hnodes : groupedSource.root.nodes.filter Node.isRuled =
      [groupedSource.root, groupedCall] := rfl
  have hshape : groupedCall.CallShape groupedSource.buffer := by
    intro arguments harguments
    obtain rfl : groupedArguments = arguments := Option.some.inj harguments
    refine ⟨Node.mem_codeChildren.2 ⟨by simp [groupedCall], rfl, by decide⟩, .inr ?_, groupedCallee,
      ⟨rfl, Node.mem_codeChildren.2 ⟨by simp [groupedCall], rfl, by decide⟩⟩, .refl _⟩
    exact ⟨⟨by decide, by decide⟩, _, [_], _, rfl, by decide +kernel, by decide +kernel⟩
  simp only [hnodes, List.forall_mem_cons]
  exact ⟨.of_shape .program (by decide) trivial, .of_shape .call (by decide) hshape, by simp⟩

theorem sorted_groupedSource : (groupedSource.tokens.toList ++ groupedSource.comments).Pairwise
    fun a b => decide (a.start ≤ b.start) = true := by
  decide +kernel

theorem checkedLevels_groupedSource :
    groupedSource.checkedLevels (groupedSource.analyze 1) = .ok [(1, 0), (2, 1), (3, 0)] :=
  checkedLevels_eq_ok sorted_groupedSource (by decide +kernel) (by decide +kernel)
    (by decide +kernel)

/-- The argument is one level deeper than the call, and the closing parenthesis level with it. -/
theorem level_of_grouped_argument :
    ∃ left first right : Token,
      (left.value, first.value, right.value, right.line) = ("(", "(", ")", 3) ∧
      (groupedSource.analyze 1).registry.get? first = some ⟨first, some left, 1⟩ ∧
      (groupedSource.analyze 1).registry.get? right = some ⟨right, some left, 0⟩ ∧
      ∃ l, groupedSource.levelOf? (groupedSource.analyze 1) left = some l ∧ 1 = l + 1 ∧ 0 = l := by
  have hplace : ⟨groupedArguments, [groupedCall, groupedStatement, groupedSource.root]⟩ ∈
      groupedSource.root.visited [] := List.mem_of_getElem? (i := 4) rfl
  have hlines : groupedSource.lines =
      [⟨0, 1, .identifier, "f", 1, 0, 1, some 0⟩, ⟨1, 2, .punctuator, "(", 1, 1, 1, some 1⟩] ::
        [⟨3, 4, .punctuator, "(", 2, 0, 2, some 2⟩, ⟨4, 5, .identifier, "x", 2, 1, 2, some 3⟩,
          ⟨5, 6, .punctuator, ")", 2, 2, 2, some 4⟩] ::
        [⟨7, 8, .punctuator, ")", 3, 0, 3, some 5⟩] :: [] := by
    rw [lines_eq_groupsFrom sorted_groupedSource]
    decide +kernel
  obtain ⟨left, right, hleft, hright, helements, hclosing, l, hl, hlevel⟩ :=
    level_of_list groupedSource_orderly hplace (.arguments (.inl rfl) rfl rfl)
      groupedArguments_delimited 1
  have hopening : groupedSource.firstOfNode? openingParen =
      some ⟨1, 2, .punctuator, "(", 1, 1, 1, some 1⟩ := by decide +kernel
  have hclosingParen : groupedSource.firstOfNode? closingParen =
      some ⟨7, 8, .punctuator, ")", 3, 0, 3, some 5⟩ := by decide +kernel
  have hargument : groupedSource.firstOfNode? groupedArgument =
      some ⟨3, 4, .punctuator, "(", 2, 0, 2, some 2⟩ := by decide +kernel
  obtain rfl := Option.mem_unique hleft hopening
  obtain rfl := Option.mem_unique hright hclosingParen
  have hmem : groupedArgument ∈ groupedArguments.codeChildren := by
    exact Node.mem_codeChildren.2 ⟨by simp [groupedArguments], rfl, by decide⟩
  obtain ⟨first, hfirst, hentry⟩ := helements _ hmem
  obtain rfl := Option.mem_unique hfirst hargument
  refine ⟨_, _, _, rfl, hentry, hclosing, l, hl, ?_, ?_⟩
  · exact (hlevel _ [_] _ _ _ 1 checkedLevels_groupedSource hlines (by simp)).1 ⟨_, hmem, hfirst⟩
  · exact (hlevel _ [_, _] _ _ _ 0 checkedLevels_groupedSource hlines (by simp)).2 rfl

end Source

end ScriptIndent
