import ScriptIndent.Proofs.Offset.LineLevel
import ScriptIndent.Proofs.Rule.Parens

/-!
# ScriptIndent.Proofs.Offset.Parens

The line that a closing parenthesis leads.

```
a =
  (           the line of the opening parenthesis
    b
  )           a line at the same level
```

The closing parenthesis around an expression with a rule is flush with the opening one.  That one
stands on a line above, if the closing one leads its line, and is known to be at the level of that
line (`Source.checkedLevels_closing`).

An element of the kind that `<b/>` stands for is an expression, too, but it has no rule.  In
parentheses of its own, nothing places the closing one (`Source.checkedLevels_element`).
-/

namespace ScriptIndent

namespace Source

open Registry

variable {s : Source} {n inner : Node} {ancestors : List Node} {i j : Nat}

/-- Around an expression with a rule, a closing parenthesis that leads a line is at the level of
the line of the opening one. -/
theorem checkedLevels_closing (g : s.root.Grammatical s.buffer) (hbalanced : s.Balanced)
    (hplace : ⟨n, ancestors⟩ ∈ s.root.visited []) (hn : n.Parenthesizes s.buffer inner)
    (hexpression : Construct.isExpressionKind inner.kind = true) (caseLevels : Int) :
    ∃ (left right : Token) (levels : LineLevels), s.first? n = some left ∧ left.isOpeningParen = true ∧
      s.last? n = some right ∧ right.isClosingParen = true ∧
      (s.analyze caseLevels).registry.get? right = some ⟨right, some left, 0⟩ ∧
      s.checkedLevels (s.analyze caseLevels) = .ok levels ∧
      ∀ above rest below, s.lines = above ++ (right :: rest) :: below →
        ∃ line ∈ above, left ∈ line ∧ ∀ leader, line.head? = some leader →
          ∀ level level', (right.line, level) ∈ levels → (leader.line, level') ∈ levels →
            level = level' := by
  obtain ⟨i, j, hstands⟩ := exists_stands_of_parenthesizes g hplace hn
  obtain ⟨left, right, hpair⟩ := hstands.exists_pair hn
  have hlt := hpair.lt
  have hends := hstands.ends (by omega : i < j)
  have hentry := hpair.get?_closing g caseLevels hbalanced hplace hn hexpression
  obtain ⟨all, -, hlevels⟩ := exists_settled g caseLevels
  refine ⟨left, right, _, hends.first?_eq.trans hpair.left_at, hpair.opening,
    hends.last?_eq.trans hpair.right_at, hpair.closing, hentry, hlevels, ?_⟩
  intro above rest below hlines
  -- the line of the opening parenthesis is above
  have hon := standsOn_above hstands.ordered hpair.left_at hpair.right_at (by omega) hlines
  obtain ⟨line, hline, hleft⟩ := standsOn_iff.1 hon
  refine ⟨line, hline, (List.mem_filter.1 hleft).1, fun leader hleader level level' hmem hmem' => ?_⟩
  obtain ⟨before, between, rfl⟩ := List.append_of_mem hline
  obtain ⟨more, rfl⟩ := List.head?_eq_some_iff.1 hleader
  have hlines' : s.lines = before ++ (leader :: more) :: (between ++ (right :: rest) :: below) := by
    rw [hlines, List.append_assoc, List.cons_append]
  obtain ⟨hcode, -, hlevel'⟩ := levelOf?_of_mem hlevels hlines' hmem'
  obtain ⟨l, hl, rfl⟩ := eq_of_leader g hlevels hpair.left_at hpair.right_at (by omega) hentry
    hlines hmem
  have hleads : leader ∈ codeOf (leader :: more) := by simp [codeOf, hcode]
  rw [levelOf?_eq_of_line g (by simp [hlines']) hleft hleads, hlevel'] at hl
  rw [Int.add_zero]
  exact (Option.some.inj hl).symm

/-! ## an operand in parentheses of its own -/

/-- A name, or an element as long. -/
def operand : Bool → Node
  | false => ⟨"identifier", true, false, false, [], 12, 16, []⟩
  | true =>
    ⟨"jsx_self_closing_element", true, false, false, [], 12, 16,
      [⟨"<", false, false, false, [], 12, 13, []⟩,
        ⟨"identifier", true, false, false, ["name"], 13, 14, []⟩,
        ⟨"/>", false, false, false, [], 14, 16, []⟩]⟩

def operandText : Bool → String
  | false => "a =\n  (\n    abcd\n  )"
  | true => "a =\n  (\n    <b/>\n  )"

/-- The operand in parentheses. -/
def parenthesized (element : Bool) : Node :=
  ⟨"parenthesized_expression", true, false, false, ["right"], 6, 20,
    [⟨"(", false, false, false, [], 6, 7, []⟩, operand element,
      ⟨")", false, false, false, [], 19, 20, []⟩]⟩

def parenthesizedAssignment (element : Bool) : Node :=
  ⟨"assignment_expression", true, false, false, [], 0, 20,
    [⟨"identifier", true, false, false, ["left"], 0, 1, []⟩,
      ⟨"=", false, false, false, [], 2, 3, []⟩, parenthesized element]⟩

def parenthesizedStatement (element : Bool) : Node :=
  ⟨"expression_statement", true, false, false, [], 0, 20, [parenthesizedAssignment element]⟩

/-- An assignment of four lines, with the operand on a line of its own. -/
def parenthesizedSource (element : Bool) : Source :=
  .ofTree (operandText element).toUTF8.data
    ⟨"program", true, false, false, [], 0, 20, [parenthesizedStatement element]⟩ none []

section Operand

variable (element : Bool)

theorem operand_sound : (operand element).Sound (parenthesizedSource element).buffer := by
  cases element with
  | false => exact Node.sound_of_leaf (by decide) rfl (by decide) (by decide)
  | true =>
    have hopening : Node.Spells (parenthesizedSource true).buffer
        ⟨"<", false, false, false, [], 12, 13, []⟩ "<" :=
      by decide +kernel
    have hclosing : Node.Spells (parenthesizedSource true).buffer
        ⟨"/>", false, false, false, [], 14, 16, []⟩ "/>" :=
      by decide +kernel
    have hn : (operand true).IsCompound := ⟨by decide, by decide⟩
    -- an element has no rule, and so no shape to keep
    have hkind : Construct.ofKind? (operand true).kind = none := by decide
    refine Node.Sound.node ⟨by decide, fun h => absurd h (by decide), fun _ => ?_, ?_⟩ ?_
    · exact hn.hasToken (by decide) List.mem_cons_self
        (Node.hasToken_of_leaf (by decide) (by decide) rfl)
    · exact fun _ construct h => absurd (hkind.symm.trans h) (by simp)
    · simp only [operand, List.forall_mem_cons]
      exact ⟨hopening.sound (by decide), Node.sound_of_leaf (by decide) rfl (by decide) (by decide),
        hclosing.sound (by decide), by simp⟩

theorem parenthesized_parts :
    Node.Spells (parenthesizedSource element).buffer
        ⟨"(", false, false, false, [], 6, 7, []⟩ "(" ∧
      Node.Spells (parenthesizedSource element).buffer
        ⟨")", false, false, false, [], 19, 20, []⟩ ")" := by
  cases element <;>
    exact ⟨by decide +kernel, by decide +kernel⟩

theorem parenthesizes_operand :
    (parenthesized element).Parenthesizes (parenthesizedSource element).buffer
      (operand element) := by
  obtain ⟨hopening, hclosing⟩ := parenthesized_parts element
  refine ⟨rfl, ?_, _, _, ?_, hopening, hclosing⟩
  · cases element <;> exact ⟨rfl, by decide⟩
  · cases element <;> rfl

theorem parenthesized_sound :
    (parenthesized element).Sound (parenthesizedSource element).buffer := by
  obtain ⟨hopening, hclosing⟩ := parenthesized_parts element
  have hn : (parenthesized element).IsCompound := by cases element <;> exact ⟨rfl, by decide⟩
  have hinOrder : Node.InOrder 6 20 (parenthesized element).children := by
    cases element <;> decide
  refine hn.sound hinOrder (by decide : (6 : Int) < 20) List.mem_cons_self
    (Node.hasToken_of_leaf (by decide) (by decide) rfl)
    (by decide : "parenthesized_expression" ≠ "template_substitution")
    (by decide : Construct.ofKind? "parenthesized_expression" = some .plain) hn.plainShape ?_
  simp only [parenthesized, List.forall_mem_cons]
  exact ⟨hopening.sound (by decide), operand_sound element, hclosing.sound (by decide), by simp⟩

theorem parenthesizedAssignment_sound :
    (parenthesizedAssignment element).Sound (parenthesizedSource element).buffer := by
  have hequals : Node.Spells (parenthesizedSource element).buffer
      ⟨"=", false, false, false, [], 2, 3, []⟩ "=" := by
    cases element <;> decide +kernel
  have hcode : (parenthesizedAssignment element).codeChildren =
      [⟨"identifier", true, false, false, ["left"], 0, 1, []⟩, parenthesized element] := rfl
  have hshape : (parenthesizedAssignment element).Shape (parenthesizedSource element).buffer .chain :=
    ⟨_, _, _, ⟨rfl, by simp [hcode]⟩, ⟨"=", hequals, by decide, by decide⟩,
      ⟨rfl, by simp [hcode]⟩, List.Sublist.refl _, rfl⟩
  have hn : (parenthesizedAssignment element).IsCompound := by
    cases element <;> exact ⟨rfl, by decide⟩
  have hinOrder : Node.InOrder 0 20 (parenthesizedAssignment element).children := by
    cases element <;> decide
  refine hn.sound hinOrder (by decide : (0 : Int) < 20) List.mem_cons_self
    (Node.hasToken_of_leaf (by decide) (by decide) rfl)
    (by decide : "assignment_expression" ≠ "template_substitution")
    (by decide : Construct.ofKind? "assignment_expression" = some .chain) hshape ?_
  simp only [parenthesizedAssignment, List.forall_mem_cons]
  exact ⟨Node.sound_of_leaf (by decide) rfl (by decide) (by decide), hequals.sound (by decide),
    parenthesized_sound element, by simp⟩

theorem parenthesizedSource_grammatical :
    (parenthesizedSource element).root.Grammatical (parenthesizedSource element).buffer := by
  have hassignment := parenthesizedAssignment_sound element
  have hn : (parenthesizedStatement element).IsCompound := by
    cases element <;> exact ⟨rfl, by decide⟩
  have hinOrder : Node.InOrder 0 20 (parenthesizedStatement element).children := by
    cases element <;> decide
  have hstatement : (parenthesizedStatement element).Sound (parenthesizedSource element).buffer := by
    refine hn.sound hinOrder (by decide : (0 : Int) < 20) List.mem_cons_self
      (hassignment.isSound.hasToken ⟨rfl, rfl⟩)
      (by decide : "expression_statement" ≠ "template_substitution")
      (by decide : Construct.ofKind? "expression_statement" = some .plain) hn.plainShape ?_
    simpa [parenthesizedStatement] using hassignment
  have hprogram : Node.InOrder 0 20 (parenthesizedSource element).root.children := by
    cases element <;> decide
  refine Node.Grammatical.of_children hprogram (by decide : "program" ≠ "template_substitution")
    (fun construct hconstruct => ?_) ?_
  · obtain rfl : Construct.program = construct :=
      Option.mem_unique (by decide : Construct.ofKind? "program" = some .program) hconstruct
    trivial
  · simpa [parenthesizedSource, ofTree] using hstatement

theorem parenthesizedSource_balanced : (parenthesizedSource element).Balanced := by
  have hall : ((parenthesizedSource element).root.visited []).all (fun place =>
      parenDepth 0 ((parenthesizedSource element).tokensOf place.node) == some 0) = true := by
    cases element <;> decide +kernel
  exact fun place hplace => beq_iff_eq.1 (List.all_eq_true.1 hall place hplace)

theorem visits_parenthesized :
    ⟨parenthesized element, [parenthesizedAssignment element, parenthesizedStatement element,
      (parenthesizedSource element).root]⟩ ∈ (parenthesizedSource element).root.visited [] := by
  cases element <;> exact List.mem_of_getElem? (i := 4) rfl

theorem sorted_parenthesizedSource : ((parenthesizedSource element).tokens.toList ++
    (parenthesizedSource element).comments).Pairwise
      fun a b => decide (a.start ≤ b.start) = true := by
  cases element <;> decide +kernel

theorem checkedLevels_parenthesizedSource :
    (parenthesizedSource element).checkedLevels ((parenthesizedSource element).analyze 1) =
      .ok (if element then [(1, 0), (2, 1), (4, 0)] else [(1, 0), (2, 1), (3, 2), (4, 1)]) := by
  cases element <;>
    exact checkedLevels_eq_ok (sorted_parenthesizedSource _) (by decide +kernel) (by decide +kernel)
      (by decide +kernel)

end Operand

/-- Around a name, the closing parenthesis is flush with the opening one. -/
theorem checkedLevels_name :
    ∃ (left right : Token) (levels : LineLevels),
      (parenthesizedSource false).first? (parenthesized false) = some left ∧
      (parenthesizedSource false).last? (parenthesized false) = some right ∧
      (parenthesizedSource false).checkedLevels ((parenthesizedSource false).analyze 1) =
        .ok levels ∧
      levels = [(1, 0), (2, 1), (3, 2), (4, 1)] ∧
      ∀ above rest below, (parenthesizedSource false).lines = above ++ (right :: rest) :: below →
        ∃ line ∈ above, left ∈ line ∧ ∀ leader, line.head? = some leader →
          ∀ level level', (right.line, level) ∈ levels → (leader.line, level') ∈ levels →
            level = level' := by
  obtain ⟨left, right, levels, hleft, -, hright, -, -, hlevels, hflush⟩ :=
    checkedLevels_closing (parenthesizedSource_grammatical false) (parenthesizedSource_balanced false)
      (visits_parenthesized false) (parenthesizes_operand false) (by decide) 1
  refine ⟨left, right, levels, hleft, hright, hlevels, ?_, hflush⟩
  exact Except.ok.inj (hlevels.symm.trans (checkedLevels_parenthesizedSource false))

/-- Around an element, the closing parenthesis leads a line at level 0, though the opening one
leads a line at level 1. -/
theorem checkedLevels_element :
    (parenthesizedSource true).root.Grammatical (parenthesizedSource true).buffer ∧
      (parenthesizedSource true).Balanced ∧
      (∃ ancestors, ⟨parenthesized true, ancestors⟩ ∈ (parenthesizedSource true).root.visited []) ∧
      (parenthesized true).Parenthesizes (parenthesizedSource true).buffer (operand true) ∧
      ∃ left right : Token,
        (parenthesizedSource true).first? (parenthesized true) = some left ∧
        (parenthesizedSource true).last? (parenthesized true) = some right ∧
        (left.line, right.line) = (2, 4) ∧
        (∃ behind, left :: behind ∈ (parenthesizedSource true).lines) ∧
        (∃ behind, right :: behind ∈ (parenthesizedSource true).lines) ∧
        (parenthesizedSource true).checkedLevels ((parenthesizedSource true).analyze 1) =
          .ok [(1, 0), (2, 1), (4, 0)] := by
  refine ⟨parenthesizedSource_grammatical true, parenthesizedSource_balanced true,
    ⟨_, visits_parenthesized true⟩, parenthesizes_operand true,
    ⟨6, 7, .punctuator, "(", 2, 2, 2, some 2⟩, ⟨19, 20, .punctuator, ")", 4, 2, 4, some 6⟩,
    by decide +kernel, by decide +kernel, rfl, ⟨[], ?_⟩, ⟨[], ?_⟩,
    checkedLevels_parenthesizedSource true⟩
  · rw [lines_eq_groupsFrom (sorted_parenthesizedSource true)]
    decide +kernel
  · rw [lines_eq_groupsFrom (sorted_parenthesizedSource true)]
    decide +kernel

end Source

end ScriptIndent
