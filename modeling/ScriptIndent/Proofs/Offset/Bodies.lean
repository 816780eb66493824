import ScriptIndent.Proofs.Offset.LineLevel
import ScriptIndent.Proofs.Rule.Bodies
import ScriptIndent.Proofs.Rule.Judged

/-!
# ScriptIndent.Proofs.Offset.Bodies

The line that a body leads.

```
if (a)          the line of the keyword
  b;            a body without braces leads a line one level deeper
else
{               and a block one at the same level
  c;
}
```

A body that is the semicolon at the end of its statement, and the last token of its line, leads a
line at the level of the statement instead (`Source.level_of_body`).  So an empty statement is not
indented below a `while`, though it is below an `if` that goes on behind it
(`Source.checkedLevels_emptyBody`).
-/

namespace ScriptIndent

namespace Source

open Registry Rule

variable {s : Source} {n keyword body : Node} {caseLevels : Int} {t : Token}

/-- A block begins with a brace. -/
theorem isOpeningBrace_of_block (g : s.root.Grammatical s.buffer) {ancestors : List Node}
    (hplace : ⟨n, ancestors⟩ ∈ s.root.visited []) (hkind : n.kind = "statement_block")
    (ht : s.firstOfNode? n = some t) : t.isOpeningBrace = true := by
  have hrule : Construct.ofKind? n.kind = some .block := by rw [hkind]; decide
  obtain ⟨i, j, hn⟩ := (found_of_visited g hplace).exists_stands hrule (by simp)
  obtain ⟨hlen, ⟨u, hu, hvalue, hukind⟩, -⟩ := hn.enclosed (shape_of_visited g hplace hrule)
    (by decide) (by decide)
  have hat : s.At i t := (hn.ends (by omega)).first?_eq.symm.trans ht
  obtain rfl := Option.mem_unique hat hu
  exact isPunctuator_of_value hvalue hukind (by decide)

/-- The line that a governed body leads is at the level of the line of the keyword if the body is a
block, and one level deeper if it does not begin with a brace.  But if the body is the semicolon at
the end of the statement and ends its line, the line is at the level of the statement. -/
theorem level_of_body (h : s.Orderly) (hwithin : n.CodeWithin s.root)
    (hgoverns : n.Governs s.buffer keyword body) {levels : LineLevels}
    (hlevels : s.checkedLevels (s.analyze caseLevels) = .ok levels)
    (hfirst : s.firstOfNode? body = some t) {above below : List (List Token)} {rest : List Token}
    (hlines : s.lines = above ++ (t :: rest) :: below) {level : Int}
    (hmem : (t.line, level) ∈ levels) :
    ∃ word start l, s.firstOfNode? keyword = some word ∧ s.firstOfNode? n = some start ∧
      s.levelOf? (s.analyze caseLevels) word = some l ∧
      (body.kind = "statement_block" → level = l) ∧
      (t.isOpeningBrace = false → ¬Trails s n t → level = l + 1) ∧
      (Trails s n t → s.levelOf? (s.analyze caseLevels) start = some level) := by
  have g := h.grammatical
  obtain ⟨-, hjudged, -⟩ := levelOf?_of_mem hlevels hlines hmem
  have hbelow : body.Below n ∧ body.IsCode := by
    rcases hgoverns.mem_codeChildren with hmem | ⟨clause, hclause, -, hmem⟩
    · exact (Node.mem_codeChildren.1 hmem).imp_left .of_mem
    · refine (Node.mem_codeChildren.1 hmem).imp_left fun hmem => ?_
      exact (Node.Below.of_mem (Node.mem_codeChildren.1 hclause).1).below_of_mem hmem
  obtain ⟨ancestors, hplace⟩ := exists_visited_of_first g hwithin hbelow.1 hbelow.2 hfirst hjudged
  obtain ⟨construct, hrule, hplain⟩ := hgoverns.exists_rule
  obtain ⟨i, j, hn⟩ := (found_of_visited g hplace).exists_stands hrule hplain
  obtain ⟨k, a, word, hbody⟩ := hn.exists_governed hgoverns
  obtain ⟨b, hstands, hab, hbj⟩ := hbody.stands
  have hik := hbody.le
  have hka := hbody.lt
  have ht : s.At a t := (hstands.ends hab).first?_eq.symm.trans hfirst
  obtain ⟨start, hstart, hstartFirst⟩ := (hn.ends (by omega)).exists_first?
  obtain ⟨l, hl⟩ := exists_levelOf? g caseLevels (Array.mem_of_getElem? hbody.word_at)
  have hplaced (htrails : ¬Trails s n t) : level = l + bodyLevels t := by
    have hentry : (s.analyze caseLevels).registry.get? t = some ⟨t, some word, bodyLevels t⟩ :=
      get?_of_body h hplace hn hgoverns hbody ht htrails
    obtain ⟨l', hl', heq⟩ := eq_of_leader g hlevels hbody.word_at ht hka hentry hlines hmem
    obtain rfl := Option.mem_unique hl hl'
    exact heq
  refine ⟨word, start, l, hbody.first, hstartFirst, hl, fun hkind => ?_, fun hbrace htrails => ?_,
    fun htrails => ?_⟩
  · obtain ⟨above, hvisited⟩ := exists_visited_of_governs hplace hrule hgoverns
    have hbrace := isOpeningBrace_of_block g hvisited hkind hfirst
    have htrails : ¬Trails s n t := fun htrails => by
      have hsemicolon := (Option.filter_eq_some_iff.1 htrails.1).2
      simp only [Token.isSemicolon, Token.isOpeningBrace, Token.isPunctuator, Bool.and_eq_true,
        beq_iff_eq] at hsemicolon hbrace
      simp [hbrace.2] at hsemicolon
    rw [hplaced htrails, bodyLevels, if_pos hbrace, Int.add_zero]
  · rw [hplaced htrails, bodyLevels, if_neg (by simp [hbrace])]
  · have hentry : (s.analyze caseLevels).registry.get? t = some ⟨t, some start, 0⟩ :=
      get?_of_trails h hplace hn hgoverns hbody ht htrails hstart
    obtain ⟨l', hl', rfl⟩ := eq_of_leader g hlevels hstart ht (by omega) hentry hlines hmem
    rw [hl', Int.add_zero]

/-! ## a loop over a statement without braces -/

def loopHead : Node :=
  ⟨"parenthesized_expression", true, false, false, ["condition"], 6, 9,
    [⟨"(", false, false, false, [], 6, 7, []⟩, ⟨"identifier", true, false, false, [], 7, 8, []⟩,
      ⟨")", false, false, false, [], 8, 9, []⟩]⟩

/-- A name, or an empty statement. -/
def loopBody : Bool → Node
  | false =>
    ⟨"expression_statement", true, false, false, ["body"], 10, 12,
      [⟨"identifier", true, false, false, [], 10, 11, []⟩, ⟨";", false, false, false, [], 11, 12, []⟩]⟩
  | true =>
    ⟨"empty_statement", true, false, false, ["body"], 10, 11,
      [⟨";", false, false, false, [], 10, 11, []⟩]⟩

def loopWord : Node := ⟨"while", false, false, false, [], 0, 5, []⟩

def loop (empty : Bool) : Node :=
  ⟨"while_statement", true, false, false, [], 0, (loopBody empty).stop,
    [loopWord, loopHead, loopBody empty]⟩

def loopText : Bool → String
  | false => "while (a)\nb;"
  | true => "while (a)\n;"

/-- A loop of two lines, with the body on a line of its own. -/
def loopSource (empty : Bool) : Source :=
  .ofTree (loopText empty).toUTF8.data
    ⟨"program", true, false, false, [], 0, (loopBody empty).stop, [loop empty]⟩ none []

section Loop

variable (empty : Bool)

theorem loopHead_enclosed : loopHead.Enclosed (loopSource empty).buffer "(" ")" := by
  refine ⟨⟨by decide, by decide⟩, _, [_], _, rfl, ?_, ?_⟩ <;> cases empty <;>
    decide +kernel

theorem loopWord_spells : loopWord.Spells (loopSource empty).buffer "while" := by
  cases empty <;> decide +kernel

theorem loop_part : (loop empty).IsPart "body" (loopBody empty) := by
  cases empty <;> exact ⟨rfl, Node.mem_codeChildren.2 ⟨by simp [loop], rfl, by decide⟩⟩

theorem loop_governs :
    (loop empty).Governs (loopSource empty).buffer loopWord (loopBody empty) :=
  .headed (.inl ⟨rfl, rfl⟩) (by cases empty <;> rfl) (loopWord_spells empty)
    (loopHead_enclosed empty) (loop_part empty)

theorem loopSource_orderly : (loopSource empty).Orderly := by
  refine .of_passes (by cases empty <;> decide +kernel) ?_
  have hnodes : (loopSource empty).root.nodes.filter Node.isRuled =
      [(loopSource empty).root, loop empty] := by cases empty <;> rfl
  have hhead : (loop empty).IsPart "condition" loopHead := by
    cases empty <;> exact ⟨rfl, Node.mem_codeChildren.2 ⟨by simp [loop], rfl, by decide⟩⟩
  have hshape : (loop empty).HeadedShape (loopSource empty).buffer :=
    ⟨"condition", loopBody empty, loop_part empty, loopWord, loopHead,
      ⟨"while", loopWord_spells empty, by decide⟩, hhead, loopHead_enclosed empty, .refl _⟩
  simp only [hnodes, List.forall_mem_cons]
  exact ⟨.of_shape .program (show Construct.ofKind? "program" = _ by decide) trivial,
    .of_shape .headed (show Construct.ofKind? "while_statement" = _ by decide) hshape,
    by simp⟩

theorem loop_codeWithin : (loop empty).CodeWithin (loopSource empty).root :=
  .child (by cases empty <;> exact List.mem_cons_self) (.refl _)

theorem sorted_loopSource : ((loopSource empty).tokens.toList ++ (loopSource empty).comments).Pairwise
    fun a b => decide (a.start ≤ b.start) = true := by
  cases empty <;> decide +kernel

theorem checkedLevels_loopSource :
    (loopSource empty).checkedLevels ((loopSource empty).analyze 1) =
      .ok [(1, 0), (2, if empty then 0 else 1)] := by
  cases empty <;>
    exact checkedLevels_eq_ok (sorted_loopSource _) (by decide +kernel) (by decide +kernel)
      (by decide +kernel)

end Loop

/-- Below its keyword, a name is one level deeper. -/
theorem level_of_name :
    ∃ word start l, (loopSource false).firstOfNode? loopWord = some word ∧
      (loopSource false).firstOfNode? (loop false) = some start ∧
      (loopSource false).levelOf? ((loopSource false).analyze 1) word = some l ∧ 1 = l + 1 := by
  have hlines : (loopSource false).lines =
      [[⟨0, 5, .keyword, "while", 1, 0, 1, some 0⟩, ⟨6, 7, .punctuator, "(", 1, 6, 1, some 1⟩,
        ⟨7, 8, .identifier, "a", 1, 7, 1, some 2⟩, ⟨8, 9, .punctuator, ")", 1, 8, 1, some 3⟩]] ++
      [⟨10, 11, .identifier, "b", 2, 0, 2, some 4⟩,
        ⟨11, 12, .punctuator, ";", 2, 1, 2, some 5⟩] :: [] := by
    rw [lines_eq_groupsFrom (sorted_loopSource false)]
    decide +kernel
  obtain ⟨word, start, l, hword, hstart, hl, -, hlevel, -⟩ :=
    level_of_body (loopSource_orderly false) (loop_codeWithin false) (loop_governs false)
      (checkedLevels_loopSource false) (by decide +kernel) hlines (show (2, 1) ∈ _ by simp)
  exact ⟨word, start, l, hword, hstart, hl, hlevel (by decide) (by decide +kernel)⟩

/-- An empty statement is at the level of the keyword above it. -/
theorem checkedLevels_emptyBody :
    (loopSource true).Orderly ∧ (loop true).CodeWithin (loopSource true).root ∧
      (loop true).Governs (loopSource true).buffer loopWord (loopBody true) ∧
      (loopBody true).kind = "empty_statement" ∧
      ∃ word t : Token, (loopSource true).firstOfNode? loopWord = some word ∧
        (loopSource true).firstOfNode? (loopBody true) = some t ∧ (word.line, t.line) = (1, 2) ∧
        (∃ rest, word :: rest ∈ (loopSource true).lines) ∧
        (∃ rest, t :: rest ∈ (loopSource true).lines) ∧
        (loopSource true).checkedLevels ((loopSource true).analyze 1) = .ok [(1, 0), (2, 0)] := by
  refine ⟨loopSource_orderly true, loop_codeWithin true, loop_governs true, rfl,
    ⟨0, 5, .keyword, "while", 1, 0, 1, some 0⟩, ⟨10, 11, .punctuator, ";", 2, 0, 2, some 4⟩,
    by decide +kernel, by decide +kernel, rfl,
    ⟨[⟨6, 7, .punctuator, "(", 1, 6, 1, some 1⟩, ⟨7, 8, .identifier, "a", 1, 7, 1, some 2⟩,
      ⟨8, 9, .punctuator, ")", 1, 8, 1, some 3⟩], ?_⟩, ⟨[], ?_⟩, checkedLevels_loopSource true⟩ <;>
  · rw [lines_eq_groupsFrom (sorted_loopSource true)]
    decide +kernel

end Source

end ScriptIndent
