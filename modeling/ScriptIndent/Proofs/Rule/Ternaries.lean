import Mathlib.Logic.Relation
import ScriptIndent.Proofs.Rule.Parts

/-!
# ScriptIndent.Proofs.Rule.Ternaries

Chains of conditional expressions.

```
a
    ? b
    : ((c        the second one is the alternative of the first, in parentheses or not: all marks
    ? d          and colons are indented from the first token of the outermost one, here a
    : e))
```

A conditional expression is linked to the one of which it is the alternative
(`Node.Placed.IsLinked`).  The links lead to one outermost conditional expression
(`Node.Placed.IsOutermost`), and the search of the rule, which compares nodes by their kinds and
ranges, finds that one (`Rule.ternaryTop_eq`).  What the rule records then lasts: behind each mark
and each colon stands the first token of an operand, and no parenthesis opens directly before one
(`Source.ternary_collapses`).
-/

namespace ScriptIndent

namespace Node

/-- A condition, and two operands behind a question mark and a colon, with no more than comments
beside them. -/
structure Chooses (b : Buffer) (n condition question consequence colon alternative : Node) : Prop where
  parts_eq : n.parts = [condition, question, consequence, colon, alternative]
  condition : n.IsPart "condition" condition
  question : question.Spells b "?"
  consequence : n.IsPart "consequence" consequence
  colon : colon.Spells b ":"
  alternative : n.IsPart "alternative" alternative

/-- What decides between two operands has the shape of a conditional expression. -/
theorem Chooses.ternaryShape {b : Buffer} {n condition question consequence colon alternative : Node}
    (h : n.Chooses b condition question consequence colon alternative) : n.TernaryShape b :=
  ⟨condition, question, consequence, colon, alternative, h.condition, h.question, h.consequence,
    h.colon, h.alternative, h.parts_eq ▸ List.filter_sublist⟩

/-- Neither the operands nor the signs between them are parentheses. -/
theorem Chooses.noParen {b : Buffer} {n condition question consequence colon alternative : Node}
    (h : n.Chooses b condition question consequence colon alternative) :
    ∀ c ∈ n.parts, c.NoParen b := by
  rw [h.parts_eq]
  simp only [List.forall_mem_cons]
  exact ⟨.inl h.condition.isCode, .inr ⟨"?", h.question, by decide, by decide, by decide⟩,
    .inl h.consequence.isCode, .inr ⟨":", h.colon, by decide, by decide, by decide⟩,
    .inl h.alternative.isCode, by simp⟩

/-- The node is something in parentheses. -/
def isParenthesized (n : Node) : Bool := n.kind == "parenthesized_expression"

namespace Placed

/-- The node, or the outermost of the pairs of parentheses around it. -/
def wrapped (p : Placed) : Node :=
  (p.ancestors.takeWhile isParenthesized).getLastD p.node

/-- The construct around a node and the pairs of parentheses around the node. -/
def around? (p : Placed) : Option Placed :=
  match p.ancestors.dropWhile isParenthesized with
  | [] => none
  | n :: above => some ⟨n, above⟩

/-- The node, in any number of parentheses, is a part of a conditional expression. -/
def Occupies (p : Placed) (name : String) (q : Placed) : Prop :=
  p.around? = some q ∧ q.node.kind = "ternary_expression" ∧ q.node.IsPart name p.wrapped

/-- The node, in any number of parentheses, is the alternative of a conditional expression. -/
def IsLinked (p q : Placed) : Prop := p.Occupies "alternative" q

/-- The outermost conditional expression of a chain of links. -/
def IsOutermost (p top : Placed) : Prop :=
  Relation.ReflTransGen IsLinked p top ∧ ∀ q, ¬top.IsLinked q

variable {p q top : Placed}

theorem around?_eq_some : p.around? = some q ↔
    p.ancestors.dropWhile isParenthesized = q.node :: q.ancestors := by
  rw [around?]
  cases p.ancestors.dropWhile isParenthesized with
  | nil => simp
  | cons n above =>
    obtain ⟨m, above'⟩ := q
    simp

theorem ancestors_eq_of_around? (h : p.around? = some q) :
    p.ancestors = p.ancestors.takeWhile isParenthesized ++ q.node :: q.ancestors := by
  rw [← around?_eq_some.1 h]
  exact List.takeWhile_append_dropWhile.symm

/-- Links lead upwards. -/
theorem length_lt_of_around? (h : p.around? = some q) : q.ancestors.length < p.ancestors.length := by
  rw [ancestors_eq_of_around? h, List.length_append, List.length_cons]
  omega

/-- Each chain of links has an outermost conditional expression. -/
theorem exists_isOutermost (p : Placed) : ∃ top, p.IsOutermost top := by
  by_cases hlink : ∃ q, p.IsLinked q
  · obtain ⟨q, hq⟩ := hlink
    have := length_lt_of_around? hq.1
    obtain ⟨top, hchain, htop⟩ := q.exists_isOutermost
    exact ⟨top, hchain.head hq, htop⟩
  · exact ⟨p, .refl, fun q hq => hlink ⟨q, hq⟩⟩
termination_by p.ancestors.length

/-- A chain of links has one outermost conditional expression. -/
theorem IsOutermost.unique {top' : Placed} (h : p.IsOutermost top) (h' : p.IsOutermost top') :
    top' = top := by
  obtain ⟨hchain, htop⟩ := h
  induction hchain using Relation.ReflTransGen.head_induction_on with
  | refl =>
    rcases h'.1.cases_head with heq | ⟨q, hq, -⟩
    · exact heq.symm
    · exact absurd hq (htop q)
  | head hlink _ ih =>
    rcases h'.1.cases_head with rfl | ⟨q, hq, hrest⟩
    · exact absurd hlink (h'.2 _)
    · obtain rfl := Option.mem_unique hlink.1 hq.1
      exact ih ⟨hrest, h'.2⟩

end Placed

/-- The nodes above a visited node are visited, and the node stands in them. -/
theorem visited_above {root : Node} {place : Placed} (h : place ∈ root.visited [])
    {front above : List Node} {n : Node} (heq : place.ancestors = front ++ n :: above) :
    ⟨n, above⟩ ∈ root.visited [] ∧ ⟨front.getLastD place.node, n :: above⟩ ∈ root.visited [] ∧
      front.getLastD place.node ∈ n.codeChildren ∧
      place.node.Within (front.getLastD place.node) := by
  induction front generalizing place with
  | nil =>
    rcases mem_visited h with rfl | ⟨parent, hparent, -, hmem, hcons⟩
    · simp at heq
    obtain ⟨rfl, rfl⟩ := List.cons_eq_cons.1 (hcons.symm.trans heq)
    refine ⟨hparent, ?_, hmem, .refl _⟩
    rw [← hcons]
    exact h
  | cons x rest ih =>
    rcases mem_visited h with rfl | ⟨parent, hparent, -, hmem, hcons⟩
    · simp at heq
    obtain ⟨rfl, hrest⟩ := List.cons_eq_cons.1 (hcons.symm.trans heq)
    obtain ⟨hn, hvisited, hchild, hwithin⟩ := ih hparent hrest
    rw [List.getLastD_cons]
    exact ⟨hn, hvisited, hchild,
      (Within.of_mem (mem_children_of_mem_codeChildren hmem)).trans hwithin⟩

end Node

namespace Rule

/-- The search for the outermost conditional expression goes on behind the parentheses around a
node. -/
theorem ternaryTop_eq (base wrapper : Node) (ancestors : List Node) :
    ternaryTop base wrapper ancestors =
      match ancestors.dropWhile Node.isParenthesized with
      | [] => base
      | n :: above =>
        if n.kind == "ternary_expression" && (n.field? "alternative").any
          (·.same ((ancestors.takeWhile Node.isParenthesized).getLastD wrapper))
        then ternaryTop n n above else base := by
  induction ancestors generalizing wrapper with
  | nil => rfl
  | cons parent rest ih =>
    rw [ternaryTop]
    by_cases hparen : parent.isParenthesized = true
    · have hkind : (parent.kind == "parenthesized_expression") = true := hparen
      rw [if_pos hkind, ih, List.dropWhile_cons_of_pos hparen, List.takeWhile_cons_of_pos hparen,
        List.getLastD_cons]
    · have hkind : ¬(parent.kind == "parenthesized_expression") = true := hparen
      rw [if_neg hkind, List.dropWhile_cons_of_neg hparen, List.takeWhile_cons_of_neg hparen]
      rfl

end Rule

namespace Source

variable {s : Source} {n condition question consequence colon alternative : Node}
  {ancestors : List Node} {i j : Nat}

/-- All visited conditional expressions have a condition and two operands. -/
def Chosen (s : Source) : Prop :=
  ∀ place ∈ s.root.visited [], place.node.kind = "ternary_expression" →
    ∃ condition question consequence colon alternative,
      place.node.Chooses s.buffer condition question consequence colon alternative

/-! ## the places of operands -/

/-- The condition, the mark, the first operand, the colon and the second operand stand directly one
behind the other. -/
structure Choice (s : Source) (condition question consequence colon alternative : Node)
    (i k m j : Nat) (mark sign : Token) : Prop where
  condition : s.Stands condition i k
  condition_lt : i < k
  question : s.Stands question k (k + 1)
  mark_at : s.At k mark
  mark_not_paren : mark.isOpeningParen = false ∧ mark.isClosingParen = false
  consequence : s.Stands consequence (k + 1) m
  consequence_lt : k + 1 < m
  colon : s.Stands colon m (m + 1)
  sign_at : s.At m sign
  sign_not_paren : sign.isOpeningParen = false ∧ sign.isClosingParen = false
  alternative : s.Stands alternative (m + 1) j
  alternative_lt : m + 1 < j

theorem Stands.exists_choice (hn : s.Stands n i j) (hcompound : n.IsCompound)
    (h : n.Chooses s.buffer condition question consequence colon alternative) :
    ∃ k m mark sign, s.Choice condition question consequence colon alternative i k m j mark sign := by
  obtain ⟨⟨k, hcondition, l, hquestion, m, hconsequence, o, hcolon, q, halternative, rfl⟩, hstands⟩ :=
    hn.run_of_parts hcompound h.parts_eq
  replace hcondition := hstands condition (by simp) _ _ hcondition
  replace hconsequence := hstands consequence (by simp) _ _ hconsequence
  replace halternative := hstands alternative (by simp) _ _ halternative
  replace hquestion := hstands question (by simp) _ _ hquestion
  replace hcolon := hstands colon (by simp) _ _ hcolon
  obtain ⟨rfl, mark, hmark, hvalue, -⟩ := hquestion.spells h.question (by decide)
  obtain ⟨rfl, sign, hsign, hvalue', -⟩ := hcolon.spells h.colon (by decide)
  exact ⟨k, m, mark, sign, hcondition, hn.lt_of_mem h.condition.2 hcondition, hquestion, hmark,
    by simp [Token.isOpeningParen, Token.isClosingParen, Token.isPunctuator, hvalue],
    hconsequence, hn.lt_of_mem h.consequence.2 hconsequence, hcolon, hsign,
    by simp [Token.isOpeningParen, Token.isClosingParen, Token.isPunctuator, hvalue'],
    halternative, hn.lt_of_mem h.alternative.2 halternative⟩

/-- Nodes of one range begin with one token. -/
theorem Stands.eq_of_range {m : Node} {a b : Nat} (hn : s.Stands n i j) (hij : i < j)
    (hm : s.Stands m a b) (hab : a < b) (hstart : n.start = m.start) (hstop : n.stop = m.stop) :
    i = a := by
  obtain ⟨t, ht, hfirst⟩ := (hn.ends hij).exists_first?
  obtain ⟨u, hu, hfirst'⟩ := (hm.ends hab).exists_first?
  have hsame : s.first? n = s.first? m := by simp [first?, firstOfNode?, hstart, hstop]
  obtain rfl := Option.mem_unique hfirst (hsame.trans hfirst')
  exact eq_of_getElem? ht hu

namespace Choice

variable {k m : Nat} {mark sign : Token}
  (h : s.Choice condition question consequence colon alternative i k m j mark sign)
  (hchooses : n.Chooses s.buffer condition question consequence colon alternative)

include h hchooses

/-- A construct in a conditional expression is the condition or one of the operands. -/
theorem cases {c : Node} (hc : c ∈ n.codeChildren) :
    c = condition ∨ c = consequence ∨ c = alternative := by
  obtain ⟨hmem, hnamed, hcomment⟩ := Node.mem_codeChildren.1 hc
  have hpart : c ∈ n.parts := List.mem_filter.2 ⟨hmem, by simp [hcomment]⟩
  simp only [hchooses.parts_eq, List.mem_cons, List.not_mem_nil, or_false] at hpart
  rcases hpart with rfl | rfl | rfl | rfl | rfl
  · exact .inl rfl
  · simp [hchooses.question.anonymous] at hnamed
  · exact .inr (.inl rfl)
  · simp [hchooses.colon.anonymous] at hnamed
  · exact .inr (.inr rfl)

/-- Of the constructs in a conditional expression only the alternative has the alternative's
range. -/
theorem eq_alternative_of_same {c : Node} (hc : c ∈ n.codeChildren)
    (hsame : alternative.same c = true) : c = alternative := by
  simp only [Node.same, Bool.and_eq_true, beq_iff_eq] at hsame
  have hcondition := h.condition_lt
  have hconsequence := h.consequence_lt
  rcases h.cases hchooses hc with rfl | rfl | rfl
  · have := h.alternative.eq_of_range h.alternative_lt h.condition hcondition hsame.1.2 hsame.2
    omega
  · have := h.alternative.eq_of_range h.alternative_lt h.consequence hconsequence hsame.1.2 hsame.2
    omega
  · rfl

/-- The alternative is neither the condition nor the consequence. -/
theorem alternative_ne : alternative ≠ condition ∧ alternative ≠ consequence := by
  have hcondition := h.condition_lt
  have hconsequence := h.consequence_lt
  constructor
  · rintro rfl
    have := h.condition.unique hcondition h.alternative
    omega
  · rintro rfl
    have := h.consequence.unique hconsequence h.alternative
    omega

end Choice

section Outermost

open Node.Placed

/-- What stands directly around a visited node, but for parentheses, is visited, too. -/
theorem visited_of_around? {p q : Node.Placed}
    (hp : p ∈ s.root.visited []) (hq : p.around? = some q) :
    q ∈ s.root.visited [] ∧ p.wrapped ∈ q.node.codeChildren := by
  obtain ⟨hvisited, -, hmem, -⟩ := Node.visited_above hp (ancestors_eq_of_around? hq)
  exact ⟨hvisited, hmem⟩

variable (g : s.root.Grammatical s.buffer) (hchosen : s.Chosen) {p q top : Node.Placed}

include g hchosen

/-- A visited conditional expression, its operands and their places. -/
theorem exists_choice (hp : p ∈ s.root.visited []) (hkind : p.node.kind = "ternary_expression") :
    ∃ condition question consequence colon alternative i k m j mark sign,
      p.node.Chooses s.buffer condition question consequence colon alternative ∧
        s.Stands p.node i j ∧
          s.Choice condition question consequence colon alternative i k m j mark sign := by
  have hrule : Construct.ofKind? p.node.kind = some .ternary := by
    rw [hkind]
    decide
  obtain ⟨condition, question, consequence, colon, alternative, hchooses⟩ := hchosen p hp hkind
  obtain ⟨i, j, hn⟩ := (found_of_visited g hp).exists_stands hrule (by simp)
  obtain ⟨k, m, mark, sign, hchoice⟩ :=
    hn.exists_choice (Node.isCompound_of_ofKind? hrule (by simp) (by simp)) hchooses
  exact ⟨_, _, _, _, _, i, k, m, j, mark, sign, hchooses, hn, hchoice⟩

/-- A conditional expression is not linked to the one of which it is the condition or the
consequence. -/
theorem isOutermost_of_occupies (hp : p ∈ s.root.visited [])
    (hq : p.Occupies "condition" q ∨ p.Occupies "consequence" q) : p.IsOutermost p := by
  refine ⟨.refl, fun q' hlink => ?_⟩
  obtain rfl : q = q' := Option.mem_unique (hq.elim (·.1) (·.1)) hlink.1
  obtain ⟨condition, _, consequence, _, alternative, _, _, _, _, _, _, hchooses, -, hchoice⟩ :=
    exists_choice g hchosen (visited_of_around? hp hlink.1).1 hlink.2.1
  have hne := hchoice.alternative_ne hchooses
  have halternative := Option.mem_unique hchooses.alternative.1 hlink.2.2.1
  rcases hq with hq | hq
  · refine hne.1 ?_
    calc alternative = _ := halternative
      _ = condition := Option.mem_unique hq.2.2.1 hchooses.condition.1
  · refine hne.2 ?_
    calc alternative = _ := halternative
      _ = consequence := Option.mem_unique hq.2.2.1 hchooses.consequence.1

/-- The search of the rule ends at the outermost conditional expression of the chain. -/
theorem ternaryTop_of_isOutermost (hp : p ∈ s.root.visited [])
    (h : p.IsOutermost top) : Rule.ternaryTop p.node p.node p.ancestors = top.node := by
  obtain ⟨hchain, htop⟩ := h
  induction hchain using Relation.ReflTransGen.head_induction_on with
  | refl =>
    rw [Rule.ternaryTop_eq]
    split
    · rfl
    next n above hdrop =>
    rw [if_neg]
    intro hstep
    rw [Bool.and_eq_true, beq_iff_eq, Option.any_eq_true] at hstep
    obtain ⟨hkind, alternative, hfield, hsame⟩ := hstep
    have haround : top.around? = some ⟨n, above⟩ := around?_eq_some.2 hdrop
    obtain ⟨hvisited, hmem⟩ := visited_of_around? hp haround
    obtain ⟨_, _, _, _, _, _, _, _, _, _, _, hchooses, -, hchoice⟩ :=
      exists_choice g hchosen hvisited hkind
    obtain rfl := Option.mem_unique hchooses.alternative.1 hfield
    have heq := hchoice.eq_alternative_of_same hchooses hmem hsame
    exact htop ⟨n, above⟩ ⟨haround, hkind, heq ▸ hchooses.alternative⟩
  | @head p q hlink _ ih =>
    obtain ⟨haround, hkind, hpart⟩ := hlink
    rw [Rule.ternaryTop_eq, around?_eq_some.1 haround, ← ih (visited_of_around? hp haround).1]
    refine if_pos ?_
    rw [Bool.and_eq_true, beq_iff_eq, hpart.1, Option.any_some]
    exact ⟨hkind, by simp [Node.same, wrapped]⟩

end Outermost

end Source

namespace Rule

open Draft

variable {s : Source} {n condition question consequence colon alternative : Node}
  {ancestors : List Node} {i k m j a b : Nat} {mark sign anchor first second : Token}

/-- The rule of a conditional expression records the mark and the colon relative to the token with
which the construct that the search ends at begins, and what follows each relative to it. -/
theorem ternary_records
    (h : s.Choice condition question consequence colon alternative i k m j mark sign)
    (hchooses : n.Chooses s.buffer condition question consequence colon alternative)
    (htop : s.Stands (ternaryTop n n ancestors) a b) (hab : a < b) (hai : a ≤ i)
    (hanchor : s.At a anchor) (hfirst : s.At (k + 1) first) (hsecond : s.At (m + 1) second)
    {e : Entry} (he : e ∈ [⟨mark, some anchor, 1⟩, ⟨sign, some anchor, 1⟩, ⟨first, some mark, 1⟩,
      ⟨second, some sign, 1⟩]) : (ternary s ancestors n).Records e := by
  have hik := h.condition_lt
  have hkm := h.consequence_lt
  have hmark := h.mark_at
  have hsign := h.sign_at
  have hne {x y : Nat} {t u : Token} (ht : s.At x t) (hu : s.At y u) (hxy : x ≠ y) : t ≠ u := by
    rintro rfl
    exact hxy (Source.eq_of_getElem? ht hu)
  have hafter {x : Nat} {t u : Token} (ht : s.At x t) (hu : s.At (x + 1) u) :
      (s.after? t).toList = [u] := by
    rw [(Source.ends_token ht).after?_eq, show s.tokens[x + 1]? = some u from hu]
    rfl
  have htopFirst : s.firstOfNode? (ternaryTop n n ancestors) = some anchor :=
    (htop.ends hab).first?_eq.trans hanchor
  have hfindMark : s.afterWhere? Token.isNotClosingParen condition = some mark :=
    (h.condition.ends hik).afterWhere?_eq_some hmark
      (by simp [Token.isNotClosingParen, h.mark_not_paren.2])
  have hfindSign : s.afterWhere? Token.isNotClosingParen consequence = some sign :=
    (h.consequence.ends hkm).afterWhere?_eq_some hsign
      (by simp [Token.isNotClosingParen, h.sign_not_paren.2])
  simp only [ternary, part, require, Draft.first, pure_bind, hchooses.condition.1,
    hchooses.consequence.1, hfindMark, hfindSign, htopFirst, hafter hmark hfirst,
    hafter hsign hsecond]
  have hmarks {l : Nat} (hlk : k ≠ l) (hlm : m ≠ l) :
      (offsets [mark, sign] 1 anchor).Meets (Entry.Elsewhere s l) fun _ => True := by
    refine meets_offsets_elsewhere fun t ht => ?_
    simp only [List.mem_cons, List.not_mem_nil, or_false] at ht
    rcases ht with rfl | rfl
    · exact ⟨k, hlk, hmark⟩
    · exact ⟨m, hlm, hsign⟩
  have hone {l x : Nat} {t base : Token} (ht : s.At x t) (hxl : x ≠ l) :
      (offsets [t] 1 base).Meets (Entry.Elsewhere s l) fun _ => True :=
    meets_offsets_elsewhere fun u hu => List.mem_singleton.1 hu ▸ ⟨x, hxl, ht⟩
  simp only [List.mem_cons, List.not_mem_nil, or_false] at he
  rcases he with rfl | rfl | rfl | rfl
  · exact (records_offsets (by simp) (hne hmark hanchor (by omega))).elsewhere hmark
      ((hone hfirst (by omega)).next (hone hsecond (by omega)))
  · exact (records_offsets (by simp) (hne hsign hanchor (by omega))).elsewhere hsign
      ((hone hfirst (by omega)).next (hone hsecond (by omega)))
  · exact (hmarks (l := k + 1) (by omega) (by omega)).records fun _ _ =>
      (records_offsets (by simp) (hne hfirst hmark (by omega))).elsewhere hfirst
        (hone hsecond (by omega))
  · exact (hmarks (l := m + 1) (by omega) (by omega)).records fun _ _ =>
      (hone (l := m + 1) hfirst (by omega)).records fun _ _ =>
        records_offsets (by simp) (hne hsecond hsign (by omega))

end Rule

namespace Source

variable {s : Source} {n condition question consequence colon alternative : Node}
  {ancestors : List Node} {i k m j : Nat} {mark sign : Token}

/-- What the rule of a conditional expression records for its mark, its colon and what stands
directly behind them lasts. -/
theorem Choice.get?_of_records (h : s.Orderly) {caseLevels : Int}
    (hchoice : s.Choice condition question consequence colon alternative i k m j mark sign)
    (hplace : ⟨n, ancestors⟩ ∈ s.root.visited []) (hkind : n.kind = "ternary_expression")
    (hn : s.Stands n i j)
    (hchooses : n.Chooses s.buffer condition question consequence colon alternative) {l : Nat}
    (hl : l = k ∨ l = k + 1 ∨ l = m ∨ l = m + 1) {e : Entry} (he : s.At l e.token)
    (hrecords : (Rule.ternary s ancestors n).Records e) :
    (s.analyze caseLevels).registry.get? e.token = some e := by
  have hrule : Construct.ofKind? n.kind = some .ternary := by
    rw [hkind]
    decide
  have hcompound := Node.isCompound_of_ofKind? hrule (by simp) (by simp)
  have hstatement : Construct.isStatementKind n.kind = false := by
    rw [hkind]
    decide
  have hfirst := hchoice.condition.spans
  have hsecond := hchoice.question.spans
  have hthird := hchoice.consequence.spans
  have hfourth := hchoice.colon.spans
  have hfifth := hchoice.alternative.spans
  -- the place is one where the expression is cut into its parts
  have hat (front : List Node) {c : Node} {back : List Node}
      (hparts : front ++ c :: back = [condition, question, consequence, colon, alternative])
      (hfront : front ≠ []) (hxs : s.SpanRun front i l) (hys : s.SpanRun (c :: back) l j) :
      (s.analyze caseLevels).registry.get? e.token = some e :=
    h.get?_of_part hplace hrule hn hchooses.noParen hcompound hstatement (by rw [hkind]; decide)
      (hchooses.parts_eq.trans hparts.symm) hfront hxs hys he hrecords
  rcases hl with rfl | rfl | rfl | rfl
  · exact hat [condition] rfl (by simp) ⟨_, hfirst, rfl⟩
      ⟨_, hsecond, _, hthird, _, hfourth, _, hfifth, rfl⟩
  · exact hat [condition, question] rfl (by simp) ⟨_, hfirst, _, hsecond, rfl⟩
      ⟨_, hthird, _, hfourth, _, hfifth, rfl⟩
  · exact hat [condition, question, consequence] rfl (by simp)
      ⟨_, hfirst, _, hsecond, _, hthird, rfl⟩ ⟨_, hfourth, _, hfifth, rfl⟩
  · exact hat [condition, question, consequence, colon] rfl (by simp)
      ⟨_, hfirst, _, hsecond, _, hthird, _, hfourth, rfl⟩ ⟨_, hfifth, rfl⟩

/-- Marks and colons of a chain of conditional expressions are indented from the first token of the
outermost one, and what stands directly behind each from it, in the end. -/
theorem ternary_collapses (h : s.Orderly) (hchosen : s.Chosen) {p top : Node.Placed}
    (hp : p ∈ s.root.visited []) (hkind : p.node.kind = "ternary_expression")
    (htop : p.IsOutermost top)
    (hchooses : p.node.Chooses s.buffer condition question consequence colon alternative)
    (caseLevels : Int) :
    ∃ (a k m : Nat) (anchor mark sign first second : Token), a < k ∧ k < m ∧
      s.At a anchor ∧ s.At k mark ∧ s.At m sign ∧
      s.firstOfNode? top.node = some anchor ∧ s.firstOfNode? question = some mark ∧
      s.firstOfNode? colon = some sign ∧ s.firstOfNode? consequence = some first ∧
      s.firstOfNode? alternative = some second ∧
      ∀ e ∈ [(⟨mark, some anchor, 1⟩ : Entry), ⟨sign, some anchor, 1⟩, ⟨first, some mark, 1⟩,
        ⟨second, some sign, 1⟩], (s.analyze caseLevels).registry.get? e.token = some e := by
  have g := h.grammatical
  obtain ⟨n, ancestors⟩ := p
  have hrule : Construct.ofKind? n.kind = some .ternary := by
    rw [show n.kind = _ from hkind]
    decide
  obtain ⟨i, j, hn⟩ := (found_of_visited g hp).exists_stands hrule (by simp)
  obtain ⟨k, m, mark, sign, hchoice⟩ :=
    hn.exists_choice (Node.isCompound_of_ofKind? hrule (by simp) (by simp)) hchooses
  have hik := hchoice.condition_lt
  have hkm := hchoice.consequence_lt
  have hmj := hchoice.alternative_lt
  obtain ⟨a, b, hstands, hab, hai⟩ := Rule.ternaryTop_stands g hp (.refl n) hn (by omega)
  obtain ⟨anchor, hanchor, -⟩ := (hstands.ends hab).exists_first?
  obtain ⟨first, hfirst, hfirstOf⟩ := (hchoice.consequence.ends hkm).exists_first?
  obtain ⟨second, hsecond, hsecondOf⟩ := (hchoice.alternative.ends hmj).exists_first?
  have htopFirst : s.firstOfNode? top.node = some anchor := by
    rw [← ternaryTop_of_isOutermost g hchosen hp htop]
    exact (hstands.ends hab).first?_eq.trans hanchor
  refine ⟨a, k, m, anchor, mark, sign, first, second, by omega, by omega, hanchor, hchoice.mark_at,
    hchoice.sign_at, htopFirst,
    (hchoice.question.ends (Nat.lt_succ_self k)).first?_eq.trans hchoice.mark_at,
    (hchoice.colon.ends (Nat.lt_succ_self m)).first?_eq.trans hchoice.sign_at, hfirstOf, hsecondOf,
    fun e he => ?_⟩
  have hrecords := Rule.ternary_records hchoice hchooses hstands hab hai hanchor hfirst hsecond he
  obtain ⟨l, hl, hat⟩ : ∃ l, (l = k ∨ l = k + 1 ∨ l = m ∨ l = m + 1) ∧ s.At l e.token := by
    simp only [List.mem_cons, List.not_mem_nil, or_false] at he
    rcases he with rfl | rfl | rfl | rfl
    · exact ⟨k, by simp, hchoice.mark_at⟩
    · exact ⟨m, by simp, hchoice.sign_at⟩
    · exact ⟨k + 1, by simp, hfirst⟩
    · exact ⟨m + 1, by simp, hsecond⟩
  exact hchoice.get?_of_records h hp hkind hn hchooses hl hat hrecords

end Source

end ScriptIndent
