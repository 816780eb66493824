import ScriptIndent.Proofs.Offset.LineLevel
import ScriptIndent.Proofs.Rule.Semicolons

/-!
# ScriptIndent.Proofs.Offset.Semicolons

The line that the semicolon at the end of a statement leads.

```
while (a)
    b
    ;            at the level of the line on which the inner statement starts
```

The semicolon is flush with the innermost of the statements that it ends
(`Source.get?_of_closes`).  That one starts before it, and if the semicolon leads its line, on a line
above (`Source.level_of_semicolon`).
-/

namespace ScriptIndent

namespace Source

variable {s : Source} {l : Nat} {semicolon : Token}

/-- A semicolon that closes statements or class fields and ends its line is flush with the innermost
of them, and at the level of the line on which that one starts. -/
theorem level_of_semicolon (h : s.Orderly) (hpunctuated : s.Punctuated) (hl : s.At l semicolon)
    (hsemicolon : semicolon.isSemicolon = true)
    (hcloses : ∃ place ∈ s.root.visited [], s.Closes place.node l)
    (hnext : ∀ t, s.At (l + 1) t → semicolon.line < t.line) (caseLevels : Int) :
    ∃ place ∈ s.root.visited [], ∃ start, s.Closes place.node l ∧
      (∀ other ∈ s.root.visited [], s.Closes other.node l → place.node.Within other.node) ∧
      s.firstOfNode? place.node = some start ∧
      (s.analyze caseLevels).registry.get? semicolon = some ⟨semicolon, some start, 0⟩ ∧
      ∀ levels above rest below level, s.checkedLevels (s.analyze caseLevels) = .ok levels →
        s.lines = above ++ (semicolon :: rest) :: below → (semicolon.line, level) ∈ levels →
          s.levelOf? (s.analyze caseLevels) start = some level := by
  obtain ⟨place, hplace, i, j, start, hn, hstart, hil, hij, hclose, hinner, hentry⟩ :=
    get?_of_closes h hpunctuated hl hsemicolon hcloses hnext caseLevels
  refine ⟨place, hplace, start, hclose, hinner, (hn.ends hij).first?_eq.trans hstart, hentry, ?_⟩
  intro levels above rest below level hlevels hlines hmem
  obtain ⟨l', hl', rfl⟩ :=
    eq_of_leader h.grammatical hlevels hstart hl hil hentry hlines hmem
  rw [hl', Int.add_zero]

/-! ## a loop whose body ends below -/

def spreadHead : Node :=
  ⟨"parenthesized_expression", true, false, false, ["condition"], 6, 9,
    [⟨"(", false, false, false, [], 6, 7, []⟩, ⟨"identifier", true, false, false, [], 7, 8, []⟩,
      ⟨")", false, false, false, [], 8, 9, []⟩]⟩

def spreadBody : Node :=
  ⟨"expression_statement", true, false, false, ["body"], 10, 13,
    [⟨"identifier", true, false, false, [], 10, 11, []⟩, ⟨";", false, false, false, [], 12, 13, []⟩]⟩

def spreadLoop : Node :=
  ⟨"while_statement", true, false, false, [], 0, 13,
    [⟨"while", false, false, false, [], 0, 5, []⟩, spreadHead, spreadBody]⟩

/-- A loop of three lines, with a name and its semicolon on lines of their own. -/
def spreadSource : Source :=
  .ofTree "while (a)\nb\n;".toUTF8.data
    ⟨"program", true, false, false, [], 0, 13, [spreadLoop]⟩ none []

theorem spreadSource_orderly : spreadSource.Orderly := by
  have hword : Node.Spells spreadSource.buffer ⟨"while", false, false, false, [], 0, 5, []⟩ "while" := by
    decide +kernel
  have hpart {name : String} {c : Node} (hfield : spreadLoop.field? name = some c)
      (hmem : c ∈ spreadLoop.children) (hcode : c.IsCode) : spreadLoop.IsPart name c :=
    ⟨hfield, Node.mem_codeChildren.2 ⟨hmem, hcode⟩⟩
  have hhead : spreadHead.Enclosed spreadSource.buffer "(" ")" :=
    ⟨⟨by decide, by decide⟩, _, [_], _, rfl, by decide +kernel, by decide +kernel⟩
  have hshape : spreadLoop.HeadedShape spreadSource.buffer :=
    ⟨"condition", spreadBody, hpart rfl (by simp [spreadLoop]) ⟨rfl, by decide⟩, _, spreadHead,
      ⟨"while", hword, by decide⟩, hpart rfl (by simp [spreadLoop]) ⟨rfl, by decide⟩, hhead, .refl _⟩
  refine .of_passes (by decide +kernel) ?_
  have hnodes : spreadSource.root.nodes.filter Node.isRuled = [spreadSource.root, spreadLoop] := rfl
  simp only [hnodes, List.forall_mem_cons]
  exact ⟨.of_shape .program (by decide) trivial, .of_shape .headed (by decide) hshape, by simp⟩

theorem spreadSource_punctuated : spreadSource.Punctuated where
  last := by decide +kernel
  clauses m hm c hc hkind := by
    have hall : spreadSource.root.all (fun m => m.codeChildren.all
        (decide <| ·.kind ∉ ["switch_case", "switch_default"])) = true := by decide +kernel
    have hnone := List.all_eq_true.1 (Node.of_all hall hm) c hc
    exact absurd hkind (of_decide_eq_true hnone)

theorem sorted_spreadSource : (spreadSource.tokens.toList ++ spreadSource.comments).Pairwise
    fun a b => decide (a.start ≤ b.start) = true := by
  decide +kernel

theorem checkedLevels_spreadSource :
    spreadSource.checkedLevels (spreadSource.analyze 1) = .ok [(1, 0), (2, 1), (3, 1)] :=
  checkedLevels_eq_ok sorted_spreadSource (by decide +kernel) (by decide +kernel)
    (by decide +kernel)

theorem spreadBody_closes :
    ∃ place ∈ spreadSource.root.visited [], spreadSource.Closes place.node 5 := by
  have g := spreadSource_orderly.grammatical
  have hplace : ⟨spreadBody, [spreadLoop, spreadSource.root]⟩ ∈ spreadSource.root.visited [] :=
    List.mem_of_getElem? (i := 4) rfl
  obtain ⟨i, j, hn⟩ := (found_of_visited g hplace).exists_stands_of_kind (by decide) (by decide)
  have hfirst : spreadSource.first? spreadBody = some ⟨10, 11, .identifier, "b", 2, 0, 2, some 4⟩ := by
    decide +kernel
  have hlast : spreadSource.last? spreadBody = some ⟨12, 13, .punctuator, ";", 3, 0, 3, some 5⟩ := by
    decide +kernel
  have hij : i < j := Nat.lt_of_not_le fun hji => by
    cases hfirst.symm.trans (Rule.firstOfNode?_eq_none g hplace hn hji)
  have hi : some 4 = some i := index_of_getElem? ((hn.ends hij).first?_eq.symm.trans hfirst)
  have hj : some 5 = some (j - 1) := index_of_getElem? ((hn.ends hij).last?_eq.symm.trans hlast)
  simp only [Option.some.injEq] at hi hj
  exact ⟨_, hplace, i, j, hn, by omega, .inl ⟨by decide, by omega⟩⟩

/-- The semicolon of the body is flush with the body, not with the loop. -/
theorem level_of_spread_semicolon :
    ∃ start semicolon : Token, (start.value, semicolon.value, semicolon.line) = ("b", ";", 3) ∧
      (spreadSource.analyze 1).registry.get? semicolon = some ⟨semicolon, some start, 0⟩ ∧
      spreadSource.levelOf? (spreadSource.analyze 1) start = some 1 := by
  let semicolon : Token := ⟨12, 13, .punctuator, ";", 3, 0, 3, some 5⟩
  have hl : spreadSource.At 5 semicolon := by decide +kernel
  have hlines : spreadSource.lines =
      [[⟨0, 5, .keyword, "while", 1, 0, 1, some 0⟩, ⟨6, 7, .punctuator, "(", 1, 6, 1, some 1⟩,
        ⟨7, 8, .identifier, "a", 1, 7, 1, some 2⟩, ⟨8, 9, .punctuator, ")", 1, 8, 1, some 3⟩],
        [⟨10, 11, .identifier, "b", 2, 0, 2, some 4⟩]] ++ [semicolon] :: [] := by
    rw [lines_eq_groupsFrom sorted_spreadSource]
    decide +kernel
  have hnext : ∀ t, spreadSource.At (5 + 1) t → semicolon.line < t.line := by
    intro t ht
    have hend : spreadSource.tokens[5 + 1]? = none := by decide +kernel
    cases hend.symm.trans ht
  obtain ⟨place, -, start, -, -, -, hentry, hlevel⟩ :=
    level_of_semicolon spreadSource_orderly spreadSource_punctuated hl (by decide) spreadBody_closes
      hnext 1
  have hvalue : (((spreadSource.analyze 1).registry.get? semicolon).bind (·.base)).map Token.value =
      some "b" := by decide +kernel
  rw [hentry] at hvalue
  refine ⟨start, semicolon, ?_, hentry,
    hlevel _ _ _ _ _ checkedLevels_spreadSource hlines (show (3, 1) ∈ _ by simp)⟩
  rw [Option.some.inj hvalue]

end Source

end ScriptIndent
