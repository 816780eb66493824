import ScriptIndent.Proofs.Offset.LineLevel
import ScriptIndent.Proofs.Rule.Links

/-!
# ScriptIndent.Proofs.Offset.Links

The lines that the links of a chain lead.

```
a
    ?.b       one level below the line on which the chain starts, whichever links stand between
    [c]
    ?.(d)
    `e`
    .f
```

The own nodes of all links are indented from the first token of the chain (`Source.link_collapses`),
so the lines that they lead are one level deeper than the line of that token
(`Source.level_of_link`).
-/

namespace ScriptIndent

namespace Source

variable {s : Source} {base : Node} {marks : List Node}

/-- In a chain of accesses and calls, what a link has of its own (a sign and a name, an opening
delimiter, or the template behind a tag) is recorded one level deeper than the first token of the
outermost link.  Lines led by it are one level deeper than the line of that token. -/
theorem level_of_link (h : s.Orderly) (hlinked : s.Linked) {p top : Node.Placed}
    (hp : p ∈ s.root.visited []) (hchain : Relation.ReflTransGen Node.Placed.IsAccessed p top)
    (hextends : p.node.Extends s.buffer base marks) (caseLevels : Int) :
    ∃ anchor, s.firstOfNode? top.node = some anchor ∧ ∀ mark ∈ marks,
      ∃ t, s.firstOfNode? mark = some t ∧
        (s.analyze caseLevels).registry.get? t = some ⟨t, some anchor, 1⟩ ∧
        ∀ levels above rest below level, s.checkedLevels (s.analyze caseLevels) = .ok levels →
          s.lines = above ++ (t :: rest) :: below → (t.line, level) ∈ levels →
            ∃ l, s.levelOf? (s.analyze caseLevels) anchor = some l ∧ level = l + 1 := by
  obtain ⟨i, anchor, hanchor, hfirst, hhangs⟩ :=
    link_collapses h hlinked hp hchain hextends caseLevels
  refine ⟨anchor, hfirst, fun mark hmark => ?_⟩
  obtain ⟨l, t, hil, ht, hmarkFirst, hentry⟩ := hhangs mark hmark
  refine ⟨t, hmarkFirst, hentry, fun levels above rest below level hlevels hlines hmem => ?_⟩
  exact eq_of_leader h.grammatical hlevels hanchor ht hil hentry hlines hmem

/-! ## a chain of all kinds of links -/

/-- The access `a?.b`, over two lines. -/
def optionalName : Node :=
  ⟨"member_expression", true, false, false, ["object"], 0, 5,
    [⟨"identifier", true, false, false, ["object"], 0, 1, []⟩,
      ⟨"optional_chain", true, false, false, ["optional_chain"], 2, 4, []⟩,
      ⟨"property_identifier", true, false, false, ["property"], 4, 5, []⟩]⟩

/-- The access `a?.b[c]`, over three lines. -/
def itemOfName : Node :=
  ⟨"subscript_expression", true, false, false, ["function"], 0, 9,
    [optionalName, ⟨"[", false, false, false, [], 6, 7, []⟩,
      ⟨"identifier", true, false, false, ["index"], 7, 8, []⟩,
      ⟨"]", false, false, false, [], 8, 9, []⟩]⟩

def optionalArguments : Node :=
  ⟨"arguments", true, false, false, ["arguments"], 12, 15,
    [⟨"(", false, false, false, [], 12, 13, []⟩,
      ⟨"identifier", true, false, false, [], 13, 14, []⟩,
      ⟨")", false, false, false, [], 14, 15, []⟩]⟩

/-- The call `a?.b[c]?.(d)`, over four lines. -/
def optionalCall : Node :=
  ⟨"call_expression", true, false, false, ["function"], 0, 15,
    [itemOfName, ⟨"optional_chain", true, false, false, ["optional_chain"], 10, 12, []⟩,
      optionalArguments]⟩

def tagText : Node :=
  ⟨"template_string", true, false, false, ["arguments"], 16, 19,
    [⟨"`", false, false, false, [], 16, 17, []⟩,
      ⟨"string_fragment", true, false, false, [], 17, 18, []⟩,
      ⟨"`", false, false, false, [], 18, 19, []⟩]⟩

/-- The call with a template behind it, over five lines. -/
def taggedCall : Node :=
  ⟨"call_expression", true, false, false, ["object"], 0, 19, [optionalCall, tagText]⟩

/-- An access by name to what the call with the template gives, over six lines. -/
def nameOfTagged : Node :=
  ⟨"member_expression", true, false, false, [], 0, 22,
    [taggedCall, ⟨".", false, false, false, [], 20, 21, []⟩,
      ⟨"property_identifier", true, false, false, ["property"], 21, 22, []⟩]⟩

def chainStatement : Node :=
  ⟨"expression_statement", true, false, false, [], 0, 22, [nameOfTagged]⟩

/-- A program of six lines, all but the first led by the links of one chain. -/
def chainSource : Source :=
  .ofTree "a\n?.b\n[c]\n?.(d)\n`e`\n.f".toUTF8.data
    ⟨"program", true, false, false, [], 0, 22, [chainStatement]⟩ none []

theorem optionalName_extends : optionalName.Extends chainSource.buffer
    ⟨"identifier", true, false, false, ["object"], 0, 1, []⟩
    [⟨"optional_chain", true, false, false, ["optional_chain"], 2, 4, []⟩,
      ⟨"property_identifier", true, false, false, ["property"], 4, 5, []⟩] := by
  have hpart {name : String} {c : Node} := Node.isPart_of_field (n := optionalName) (c := c) name
  exact .name rfl (hpart rfl ⟨rfl, rfl⟩) (.inr (by decide +kernel)) (hpart rfl ⟨rfl, rfl⟩) rfl

theorem itemOfName_extends : itemOfName.Extends chainSource.buffer optionalName
    [⟨"[", false, false, false, [], 6, 7, []⟩] := by
  have hpart {name : String} {c : Node} := Node.isPart_of_field (n := itemOfName) (c := c) name
  exact @Node.Extends.index _ _ _ none _ _ _ rfl (hpart rfl ⟨rfl, rfl⟩) (by simp)
    (by decide +kernel) (hpart rfl ⟨rfl, rfl⟩) (by decide +kernel) rfl

theorem optionalCall_extends : optionalCall.Extends chainSource.buffer itemOfName
    [⟨"optional_chain", true, false, false, ["optional_chain"], 10, 12, []⟩,
      ⟨"(", false, false, false, [], 12, 13, []⟩] := by
  have hpart {name : String} {c : Node} := Node.isPart_of_field (n := optionalCall) (c := c) name
  exact @Node.Extends.call _ _ _
    (some ⟨"optional_chain", true, false, false, ["optional_chain"], 10, 12, []⟩) optionalArguments
    _ _
    [⟨"identifier", true, false, false, [], 13, 14, []⟩] rfl (hpart rfl ⟨rfl, rfl⟩)
    (by decide +kernel) (hpart rfl ⟨rfl, rfl⟩) ⟨rfl, by decide⟩ rfl (by decide +kernel)
    (by decide +kernel) rfl

theorem taggedCall_extends : taggedCall.Extends chainSource.buffer optionalCall [tagText] := by
  have hpart {name : String} {c : Node} := Node.isPart_of_field (n := taggedCall) (c := c) name
  exact .tagged rfl (hpart rfl ⟨rfl, rfl⟩) (hpart rfl ⟨rfl, rfl⟩) rfl rfl

theorem nameOfTagged_extends : nameOfTagged.Extends chainSource.buffer taggedCall
    [⟨".", false, false, false, [], 20, 21, []⟩,
      ⟨"property_identifier", true, false, false, ["property"], 21, 22, []⟩] := by
  have hpart {name : String} {c : Node} := Node.isPart_of_field (n := nameOfTagged) (c := c) name
  exact .name rfl (hpart rfl ⟨rfl, rfl⟩) (.inl (by decide +kernel)) (hpart rfl ⟨rfl, rfl⟩) rfl

theorem chainSource_orderly : chainSource.Orderly := by
  refine .of_passes (by decide +kernel) ?_
  have hnodes : chainSource.root.nodes.filter Node.isRuled =
      [chainSource.root, nameOfTagged, taggedCall, optionalCall, itemOfName, optionalName, tagText] :=
    rfl
  simp only [hnodes, List.forall_mem_cons]
  exact ⟨.of_shape .program (by decide) trivial, nameOfTagged_extends.shaped,
    taggedCall_extends.shaped, optionalCall_extends.shaped, itemOfName_extends.shaped,
    optionalName_extends.shaped,
    .of_shape .templateLiteral (by decide)
      ⟨show 0 < Piece.codeCount _ by decide +kernel, by decide +kernel⟩, by simp⟩

theorem chainSource_linked : chainSource.Linked := by
  intro place hplace hkind
  have hplaces : ((chainSource.root.visited []).filter (·.node.kind ∈ Node.linkKinds)).map (·.node) =
      [nameOfTagged, taggedCall, optionalCall, itemOfName, optionalName] := rfl
  have hmem : place.node ∈
      ((chainSource.root.visited []).filter (·.node.kind ∈ Node.linkKinds)).map (·.node) :=
    List.mem_map_of_mem (List.mem_filter.2 ⟨hplace, decide_eq_true hkind⟩)
  rw [hplaces] at hmem
  simp only [List.mem_cons, List.not_mem_nil, or_false] at hmem
  rcases hmem with heq | heq | heq | heq | heq <;> rw [heq]
  · exact ⟨_, _, nameOfTagged_extends⟩
  · exact ⟨_, _, taggedCall_extends⟩
  · exact ⟨_, _, optionalCall_extends⟩
  · exact ⟨_, _, itemOfName_extends⟩
  · exact ⟨_, _, optionalName_extends⟩

theorem sorted_chainSource : (chainSource.tokens.toList ++ chainSource.comments).Pairwise
    fun a b => decide (a.start ≤ b.start) = true := by
  decide +kernel

theorem checkedLevels_chainSource :
    chainSource.checkedLevels (chainSource.analyze 1) =
      .ok [(1, 0), (2, 1), (3, 1), (4, 1), (5, 1), (6, 1)] :=
  checkedLevels_eq_ok sorted_chainSource (by decide +kernel) (by decide +kernel)
    (by decide +kernel)

/-- The sign of the innermost link is one level below the first line, like all links. -/
theorem level_of_link_optionalName :
    ∃ anchor sign : Token, (anchor.value, sign.value, sign.line) = ("a", "?.", 2) ∧
      (chainSource.analyze 1).registry.get? sign = some ⟨sign, some anchor, 1⟩ ∧
      ∃ l, chainSource.levelOf? (chainSource.analyze 1) anchor = some l ∧ 1 = l + 1 := by
  have hplace : ⟨optionalName, [itemOfName, optionalCall, taggedCall, nameOfTagged, chainStatement,
      chainSource.root]⟩ ∈ chainSource.root.visited [] := List.mem_of_getElem? (i := 6) rfl
  have hchain : Relation.ReflTransGen Node.Placed.IsAccessed
      ⟨optionalName, [itemOfName, optionalCall, taggedCall, nameOfTagged, chainStatement,
        chainSource.root]⟩ ⟨nameOfTagged, [chainStatement, chainSource.root]⟩ := by
    refine .head (b := ⟨itemOfName, _⟩) ⟨rfl, by decide, rfl⟩ ?_
    refine .head (b := ⟨optionalCall, _⟩) ⟨rfl, by decide, rfl⟩ ?_
    refine .head (b := ⟨taggedCall, _⟩) ⟨rfl, by decide, rfl⟩ ?_
    exact .single ⟨rfl, by decide, rfl⟩
  obtain ⟨anchor, htop, hmarks⟩ := level_of_link chainSource_orderly chainSource_linked hplace hchain
    optionalName_extends 1
  obtain ⟨sign, hsign, hentry, hlevel⟩ := hmarks _ List.mem_cons_self
  have hanchor : chainSource.firstOfNode? nameOfTagged =
      some ⟨0, 1, .identifier, "a", 1, 0, 1, some 0⟩ := by decide +kernel
  have hfirst : chainSource.firstOfNode?
      ⟨"optional_chain", true, false, false, ["optional_chain"], 2, 4, []⟩ =
        some ⟨2, 4, .punctuator, "?.", 2, 0, 2, some 1⟩ := by decide +kernel
  obtain rfl := Option.mem_unique hanchor htop
  obtain rfl := Option.mem_unique hfirst hsign
  have hlines : chainSource.lines =
      [[⟨0, 1, .identifier, "a", 1, 0, 1, some 0⟩]] ++
      [⟨2, 4, .punctuator, "?.", 2, 0, 2, some 1⟩, ⟨4, 5, .identifier, "b", 2, 2, 2, some 2⟩] ::
      [[⟨6, 7, .punctuator, "[", 3, 0, 3, some 3⟩, ⟨7, 8, .identifier, "c", 3, 1, 3, some 4⟩,
          ⟨8, 9, .punctuator, "]", 3, 2, 3, some 5⟩],
        [⟨10, 12, .punctuator, "?.", 4, 0, 4, some 6⟩, ⟨12, 13, .punctuator, "(", 4, 2, 4, some 7⟩,
          ⟨13, 14, .identifier, "d", 4, 3, 4, some 8⟩, ⟨14, 15, .punctuator, ")", 4, 4, 4, some 9⟩],
        [⟨16, 19, .template, "`e`", 5, 0, 5, some 10⟩],
        [⟨20, 21, .punctuator, ".", 6, 0, 6, some 11⟩,
          ⟨21, 22, .identifier, "f", 6, 1, 6, some 12⟩]] := by
    rw [lines_eq_groupsFrom sorted_chainSource]
    decide +kernel
  exact ⟨_, _, rfl, hentry, hlevel _ _ _ _ _ checkedLevels_chainSource hlines
    (show (2, 1) ∈ _ by simp)⟩

end Source

end ScriptIndent
