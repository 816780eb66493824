import ScriptIndent.Proofs.Rule.Parts

/-!
# ScriptIndent.Proofs.Rule.Chains

Chains of binary constructs.

```
a =
    b + c           the operators and the right operands of the whole chain are indented from
    - (d            the first token of its outermost construct, here a; in parentheses a chain
        * e)        begins anew, here with d
```

The search for the outermost construct stops early at an opening parenthesis.  Such a parenthesis
stands before a left operand only, with which all constructs around it begin
(`Source.outermost_begins`); so where the search ends makes no difference (`Rule.chainTop_begins`).
-/

namespace ScriptIndent

namespace Node

/-- A left operand, an operator and a right operand, with no more than comments beside them. -/
structure Joins (b : Buffer) (n left operator right : Node) : Prop where
  parts_eq : n.parts = [left, operator, right]
  left : n.IsPart "left" left
  operator : ∃ value, operator.Spells b value ∧ IsSpelling value ∧ value ≠ "(" ∧ value ≠ ")"
  right : n.IsPart "right" right

/-- What joins two operands has the shape of a link of a chain, if it begins with the left one. -/
theorem Joins.chainShape {b : Buffer} {n left operator right : Node}
    (h : n.Joins b left operator right) (hhead : n.codeChildren.head? = some left) :
    n.ChainShape b := by
  obtain ⟨value, hspells, hspelling, -, hclosing⟩ := h.operator
  exact ⟨left, operator, right, h.left, ⟨value, hspells, hspelling, hclosing⟩, h.right,
    h.parts_eq ▸ List.filter_sublist, hhead⟩

/-- Neither the operands nor the operator are parentheses. -/
theorem Joins.noParen {b : Buffer} {n left operator right : Node}
    (h : n.Joins b left operator right) : ∀ c ∈ n.parts, c.NoParen b := by
  rw [h.parts_eq]
  simp only [List.forall_mem_cons]
  exact ⟨.inl h.left.isCode, .inr h.operator, .inl h.right.isCode, by simp⟩

/-- The outermost construct of a chain, given the nodes above a construct in it: the chain goes on
as long as these are binary constructs. -/
def outermost (n : Node) : List Node → Node
  | [] => n
  | parent :: rest => if Construct.isChainKind parent.kind then parent.outermost rest else n

end Node

namespace Source

variable {s : Source} {n left operator right : Node} {ancestors : List Node} {i j : Nat}

/-- All visited binary constructs have two operands. -/
def Joined (s : Source) : Prop :=
  ∀ place ∈ s.root.visited [], Construct.isChainKind place.node.kind = true →
    ∃ left operator right, place.node.Joins s.buffer left operator right

/-! ## the places of operands -/

/-- The operands of a binary construct and its operator stand directly one behind the other. -/
structure Operands (s : Source) (left operator right : Node) (i k j : Nat) (sign : Token) :
    Prop where
  left : s.Stands left i k
  left_lt : i < k
  operator : s.Stands operator k (k + 1)
  sign_at : s.At k sign
  not_opening : sign.isOpeningParen = false
  not_closing : sign.isClosingParen = false
  right : s.Stands right (k + 1) j
  right_lt : k + 1 < j

theorem Stands.exists_operands (hn : s.Stands n i j) (hcompound : n.IsCompound)
    (h : n.Joins s.buffer left operator right) :
    ∃ k sign, s.Operands left operator right i k j sign := by
  obtain ⟨⟨k, hleft, l, hoperator, m, hright, rfl⟩, hstands⟩ := hn.run_of_parts hcompound h.parts_eq
  replace hleft := hstands left (by simp) _ _ hleft
  replace hright := hstands right (by simp) _ _ hright
  replace hoperator := hstands operator (by simp) _ _ hoperator
  obtain ⟨value, hspells, hspelling, hopening, hclosing⟩ := h.operator
  obtain ⟨rfl, sign, hsign, hvalue, -⟩ := hoperator.spells hspells hspelling
  exact ⟨k, sign, hleft, hn.lt_of_mem h.left.2 hleft, hoperator, hsign,
    by simp [Token.isOpeningParen, Token.isPunctuator, hvalue, hopening],
    by simp [Token.isClosingParen, Token.isPunctuator, hvalue, hclosing], hright,
    hn.lt_of_mem h.right.2 hright⟩

/-- A construct in a binary construct is one of its operands. -/
theorem Operands.cases {k : Nat} {sign : Token} (h : s.Operands left operator right i k j sign)
    (hjoins : n.Joins s.buffer left operator right) {c : Node} (hc : c ∈ n.codeChildren) :
    c = left ∨ c = right := by
  obtain ⟨hmem, hnamed, hcomment⟩ := Node.mem_codeChildren.1 hc
  have hpart : c ∈ n.parts := List.mem_filter.2 ⟨hmem, by simp [hcomment]⟩
  obtain ⟨value, hspells, -⟩ := hjoins.operator
  simp only [hjoins.parts_eq, List.mem_cons, List.not_mem_nil, or_false] at hpart
  rcases hpart with rfl | rfl | rfl
  · exact .inl rfl
  · simp [hspells.anonymous] at hnamed
  · exact .inr rfl

/-! ## the outermost construct -/

section Outermost

variable (g : s.root.Grammatical s.buffer) (hjoined : s.Joined)

include g hjoined

/-- The binary construct directly around another, its operands and their places. -/
theorem exists_parent {parent : Node} (hchain : Construct.isChainKind parent.kind = true)
    (hplace : ⟨n, parent :: ancestors⟩ ∈ s.root.visited []) (hn : s.Stands n i j) (hij : i < j) :
    ⟨parent, ancestors⟩ ∈ s.root.visited [] ∧ ∃ left operator right a k b sign,
      parent.Joins s.buffer left operator right ∧ s.Stands parent a b ∧
        s.Operands left operator right a k b sign ∧ (i = a ∨ i = k + 1) ∧ j ≤ b := by
  obtain ⟨hparent, hmem⟩ := parent_mem_visited hplace
  have hrule := Rule.ofKind?_of_isChainKind hchain
  obtain ⟨left, operator, right, hjoins⟩ := hjoined _ hparent hchain
  obtain ⟨a, b, hstands⟩ := (found_of_visited g hparent).exists_stands hrule (by simp)
  obtain ⟨k, sign, hoperands⟩ := hstands.exists_operands
    (Node.isCompound_of_ofKind? hrule (by simp) (by simp)) hjoins
  refine ⟨hparent, left, operator, right, a, k, b, sign, hjoins, hstands, hoperands, ?_⟩
  have := hoperands.right_lt
  rcases hoperands.cases hjoins hmem with rfl | rfl
  · obtain ⟨rfl, rfl⟩ := hoperands.left.unique hoperands.left_lt hn
    omega
  · obtain ⟨rfl, rfl⟩ := hoperands.right.unique hoperands.right_lt hn
    omega

/-- The outermost construct around one that an opening parenthesis stands before begins with it. -/
theorem outermost_begins (hplace : ⟨n, ancestors⟩ ∈ s.root.visited []) (hn : s.Stands n i j)
    (hij : i < j) (hi : 0 < i) {opening : Token} (hopening : s.At (i - 1) opening)
    (hparen : opening.isOpeningParen = true) :
    ∃ k, j ≤ k ∧ s.Stands (n.outermost ancestors) i k := by
  induction ancestors generalizing n j with
  | nil => exact ⟨j, Nat.le_refl j, hn⟩
  | cons parent rest ih =>
    rw [Node.outermost]
    split
    · next hchain =>
      obtain ⟨hparent, _, _, _, a, k, b, sign, -, hstands, hoperands, (hi' | hi'), hjb⟩ :=
        exists_parent g hjoined hchain hplace hn hij
      · subst hi'
        obtain ⟨l, hbl, htop⟩ := ih hparent hstands (by omega)
        exact ⟨l, by omega, htop⟩
      · -- an operator stands before a right operand
        subst hi'
        obtain rfl := Option.mem_unique hopening hoperands.sign_at
        simp [hoperands.not_opening] at hparen
    · exact ⟨j, Nat.le_refl j, hn⟩

end Outermost

end Source

namespace Rule

open Draft

variable {s : Source} {n left operator right : Node} {ancestors : List Node} {i j : Nat}

/-- The search for the outermost construct ends at one that begins with the same token. -/
theorem chainTop_begins (g : s.root.Grammatical s.buffer) (hjoined : s.Joined)
    (hplace : ⟨n, ancestors⟩ ∈ s.root.visited [])
    (hchain : Construct.isChainKind n.kind = true) (hn : s.Stands n i j) (hij : i < j) :
    ∃ left a k b, (chainTop s n ancestors).field? "left" = some left ∧ s.Stands left a k ∧ a < k ∧
      s.Stands (n.outermost ancestors) a b ∧ a ≤ i ∧ j ≤ b := by
  have hself : ∃ left k, n.field? "left" = some left ∧ s.Stands left i k ∧ i < k := by
    have hrule := ofKind?_of_isChainKind hchain
    obtain ⟨left, operator, right, hjoins⟩ := hjoined _ hplace hchain
    obtain ⟨k, sign, hoperands⟩ := hn.exists_operands
      (Node.isCompound_of_ofKind? hrule (by simp) (by simp)) hjoins
    exact ⟨left, k, hjoins.left.1, hoperands.left, hoperands.left_lt⟩
  obtain ⟨left, k, hleft, hleftStands, hik⟩ := hself
  induction ancestors generalizing n i j left k with
  | nil => exact ⟨left, i, k, j, hleft, hleftStands, hik, hn, Nat.le_refl i, Nat.le_refl j⟩
  | cons parent rest ih =>
    rw [chainTop]
    split
    · next hstep =>
      rw [Bool.and_eq_true] at hstep
      obtain ⟨hparent, left', _, _, a, k', b, _, hjoins, hstands, hoperands, hi, hjb⟩ :=
        Source.exists_parent g hjoined hstep.1 hplace hn hij
      have := hoperands.left_lt
      have := hoperands.right_lt
      obtain ⟨left, a', k, b', hfield, hleft, hlt, htop, hle, hble⟩ := ih hparent hstep.1 hstands
        (by omega) left' k' hjoins.left.1 hoperands.left hoperands.left_lt
      refine ⟨left, a', k, b', hfield, hleft, hlt, ?_, by omega, by omega⟩
      rwa [Node.outermost, if_pos hstep.1]
    · next hstop =>
      by_cases hparent : Construct.isChainKind parent.kind = true
      · -- the search stopped at an opening parenthesis
        rw [hparent, Bool.true_and, Bool.not_eq_true', Bool.not_eq_false,
          (hn.ends hij).before?_eq] at hstop
        split at hstop
        · simp at hstop
        obtain ⟨opening, hopening, hparen⟩ := (Option.any_eq_true _ _).1 hstop
        obtain ⟨b, hjb, htop⟩ := Source.outermost_begins g hjoined hplace hn hij (by omega)
          hopening hparen
        exact ⟨left, i, k, b, hleft, hleftStands, hik, htop, Nat.le_refl i, hjb⟩
      · refine ⟨left, i, k, j, hleft, hleftStands, hik, ?_, Nat.le_refl i, Nat.le_refl j⟩
        rwa [Node.outermost, if_neg hparent]

/-- The rule of a binary construct records its operator and its right operand relative to the token
with which the construct that the search ends at begins. -/
theorem chain_records {k : Nat} {sign operand anchor : Token}
    (hoperands : s.Operands left operator right i k j sign)
    (hjoins : n.Joins s.buffer left operator right) (hoperand : s.At (k + 1) operand)
    {first : Node} {a b : Nat} (hfirst : (chainTop s n ancestors).field? "left" = some first)
    (hstands : s.Stands first a b) (hab : a < b) (hai : a ≤ i) (hanchor : s.At a anchor)
    {t : Token} (ht : t = sign ∨ t = operand) :
    (chain s ancestors n).Records ⟨t, some anchor, 1⟩ := by
  have hleft := hoperands.left_lt
  have hsearch : s.afterWhere? Token.isNotClosingParen left = some sign :=
    (hoperands.left.ends hleft).afterWhere?_eq_some hoperands.sign_at
      (by simp [Token.isNotClosingParen, hoperands.not_closing])
  have hne : t ≠ anchor := by
    rintro rfl
    rcases ht with rfl | rfl
    · have := Source.eq_of_getElem? hanchor hoperands.sign_at
      omega
    · have := Source.eq_of_getElem? hanchor hoperand
      omega
  refine records_part hjoins.left.1 ?_
  refine (meets_require (E := fun _ => True) hsearch hoperands.sign_at).records fun sign' hsign => ?_
  refine (meets_firstOf (E := fun _ => True) hjoins.right.1 hoperands.right
    hoperands.right_lt).records fun operand' hoperand' => ?_
  refine (meets_firstOf (E := fun _ => True) hfirst hstands hab).records fun anchor' hanchor' => ?_
  obtain rfl := Option.mem_unique hsign hoperands.sign_at
  obtain rfl := Option.mem_unique hoperand' hoperand
  obtain rfl := Option.mem_unique hanchor' hanchor
  exact records_offsets (by simpa using ht) hne

end Rule

namespace Source

variable {s : Source} {n left operator right : Node} {ancestors : List Node} {i j : Nat}

/-- What stands above a visited node is visited, and the node is below it. -/
theorem visited_of_mem_ancestors {root : Node} {place : Node.Placed}
    (h : place ∈ root.visited []) {m : Node} (hm : m ∈ place.ancestors) :
    place.node.Below m ∧ ∃ above, ⟨m, above⟩ ∈ root.visited [] := by
  refine Node.visited_induct
    (P := fun p => ∀ m ∈ p.ancestors, p.node.Below m ∧ ∃ above, ⟨m, above⟩ ∈ root.visited [])
    (by simp) ?_ h m hm
  intro parent hparent ih hrule c hc m hm
  have hmem := Node.mem_children_of_mem_codeChildren hc
  rcases List.mem_cons.1 hm with rfl | hm
  · exact ⟨.of_mem hmem, _, hparent⟩
  · obtain ⟨hbelow, hvisited⟩ := ih m hm
    exact ⟨hbelow.below_of_mem hmem, hvisited⟩

/-- Binary constructs around a pair of parentheses begin before what is in it. -/
theorem first?_ne_of_parenthesized (g : s.root.Grammatical s.buffer) {parent : Node}
    (hplace : ⟨n, parent :: ancestors⟩ ∈ s.root.visited []) (hn : s.Stands n i j) (hij : i < j)
    (hparent : parent.Parenthesizes s.buffer n) {anchor : Token} (hanchor : s.At i anchor)
    {m : Node} (hm : m ∈ parent :: ancestors) (hchain : Construct.isChainKind m.kind = true) :
    s.firstOfNode? m ≠ some anchor := by
  rcases Node.mem_visited hplace with heq | ⟨⟨p, above⟩, hvisited, -, -, hcons⟩
  · simp at heq
  simp only [List.cons.injEq] at hcons
  obtain ⟨rfl, rfl⟩ := hcons
  obtain ⟨a, b, hstands⟩ := exists_stands_of_parenthesizes g hvisited hparent
  obtain ⟨_, _, hpair⟩ := hstands.exists_pair hparent
  have hpairLt := hpair.lt
  obtain ⟨rfl, rfl⟩ := hpair.stands.unique hpairLt hn
  obtain ⟨hwithin, above, hmvisited⟩ : parent.Within m ∧ ∃ above, ⟨m, above⟩ ∈ s.root.visited [] := by
    rcases List.mem_cons.1 hm with rfl | hm
    · exact ⟨.refl m, _, hvisited⟩
    · exact (visited_of_mem_ancestors hvisited hm).imp_left Node.Below.within
  obtain ⟨c, d, hmstands⟩ := (found_of_visited g hmvisited).exists_stands
    (Rule.ofKind?_of_isChainKind hchain) (by simp)
  obtain ⟨hca, hbd⟩ := hmstands.le_of_within hstands (by omega) hwithin
  obtain ⟨t, ht, hfirst⟩ := (hmstands.ends (by omega)).exists_first?
  intro heq
  obtain rfl := Option.mem_unique hfirst heq
  have := eq_of_getElem? ht hanchor
  omega

private theorem isStatementKind_of_isChainKind {kind : String} (h : Construct.isChainKind kind = true) :
    Construct.isStatementKind kind = false := by
  have hall : ∀ kind ∈ Construct.chainKinds, Construct.isStatementKind kind = false := by decide
  exact hall kind (by simpa [Construct.isChainKind] using h)

/-- What the rule of a binary construct records for its operator and its right operand lasts. -/
theorem Operands.get?_of_records (h : s.Orderly) {caseLevels : Int} {k : Nat} {sign operand : Token}
    (hoperands : s.Operands left operator right i k j sign)
    (hplace : ⟨n, ancestors⟩ ∈ s.root.visited [])
    (hchain : Construct.isChainKind n.kind = true) (hn : s.Stands n i j)
    (hjoins : n.Joins s.buffer left operator right) (hoperand : s.At (k + 1) operand)
    {t : Token} (ht : t = sign ∨ t = operand) {levels : Int} {base : Option Token}
    (hrecords : (Rule.chain s ancestors n).Records ⟨t, base, levels⟩) :
    (s.analyze caseLevels).registry.get? t = some ⟨t, base, levels⟩ := by
  have hrule := Rule.ofKind?_of_isChainKind hchain
  have hcompound := Node.isCompound_of_ofKind? hrule (by simp) (by simp)
  have hstatement := isStatementKind_of_isChainKind hchain
  have hkind : n.kind ≠ "class_body" := by
    intro hkind
    rw [hkind] at hrule
    exact absurd hrule (by decide)
  have hleft : s.SpanRun [left] i k := ⟨k, hoperands.left.spans, rfl⟩
  have hright : s.SpanRun [right] (k + 1) j := ⟨j, hoperands.right.spans, rfl⟩
  have hoperator := hoperands.operator.spans
  -- both stand where the construct is cut into its parts
  rcases ht with rfl | rfl
  · exact h.get?_of_part hplace hrule hn hjoins.noParen hcompound hstatement hkind
      (show n.parts = [left] ++ operator :: [right] from hjoins.parts_eq) (by simp) hleft
      ⟨k + 1, hoperator, hright⟩ hoperands.sign_at hrecords
  · exact h.get?_of_part hplace hrule hn hjoins.noParen hcompound hstatement hkind
      (show n.parts = [left, operator] ++ right :: [] from hjoins.parts_eq) (by simp)
      ⟨k, hoperands.left.spans, k + 1, hoperator, rfl⟩ hright hoperand hrecords

/-- The expression `b+c` in `a=(b+c)`. -/
def sum : Node :=
  ⟨"binary_expression", true, false, false, [], 3, 6,
    [⟨"identifier", true, false, false, ["left"], 3, 4, []⟩,
      ⟨"+", false, false, false, ["operator"], 4, 5, []⟩,
      ⟨"identifier", true, false, false, ["right"], 5, 6, []⟩]⟩

def sumInParentheses : Node :=
  ⟨"parenthesized_expression", true, false, false, ["right"], 2, 7,
    [⟨"(", false, false, false, [], 2, 3, []⟩, sum, ⟨")", false, false, false, [], 6, 7, []⟩]⟩

def sumAssignment : Node :=
  ⟨"assignment_expression", true, false, false, [], 0, 7,
    [⟨"identifier", true, false, false, ["left"], 0, 1, []⟩,
      ⟨"=", false, false, false, [], 1, 2, []⟩, sumInParentheses]⟩

def sumStatement : Node :=
  ⟨"expression_statement", true, false, false, [], 0, 7, [sumAssignment]⟩

/-- A program that consists of `a=(b+c)`. -/
def sumSource : Source :=
  .ofTree "a=(b+c)".toUTF8.data ⟨"program", true, false, false, [], 0, 7, [sumStatement]⟩ none []

theorem sum_joins : sum.Joins sumSource.buffer
    ⟨"identifier", true, false, false, ["left"], 3, 4, []⟩
    ⟨"+", false, false, false, ["operator"], 4, 5, []⟩
    ⟨"identifier", true, false, false, ["right"], 5, 6, []⟩ :=
  ⟨rfl, ⟨rfl, List.mem_cons_self⟩,
    ⟨"+", by decide +kernel, by decide, by decide, by decide⟩,
    ⟨rfl, List.mem_cons_of_mem _ List.mem_cons_self⟩⟩

theorem sumAssignment_joins : sumAssignment.Joins sumSource.buffer
    ⟨"identifier", true, false, false, ["left"], 0, 1, []⟩
    ⟨"=", false, false, false, [], 1, 2, []⟩ sumInParentheses :=
  ⟨rfl, ⟨rfl, List.mem_cons_self⟩,
    ⟨"=", by decide +kernel, by decide, by decide, by decide⟩,
    ⟨rfl, List.mem_cons_of_mem _ List.mem_cons_self⟩⟩

theorem sumSource_orderly : sumSource.Orderly := by
  refine .of_passes (by decide +kernel) ?_
  have hnodes : sumSource.root.nodes.filter Node.isRuled = [sumSource.root, sumAssignment, sum] := rfl
  simp only [hnodes, List.forall_mem_cons]
  exact ⟨.of_shape .program (by decide) trivial,
    .of_shape .chain (by decide) (sumAssignment_joins.chainShape rfl),
    .of_shape .chain (by decide) (sum_joins.chainShape rfl), by simp⟩

theorem sumSource_joined : sumSource.Joined := by
  intro place hplace hchain
  have hplaces : (sumSource.root.visited []).filter (Construct.isChainKind ·.node.kind) =
      [⟨sumAssignment, [sumStatement, sumSource.root]⟩,
        ⟨sum, [sumInParentheses, sumAssignment, sumStatement, sumSource.root]⟩] := rfl
  have hmem : place ∈ (sumSource.root.visited []).filter (Construct.isChainKind ·.node.kind) :=
    List.mem_filter.2 ⟨hplace, hchain⟩
  rw [hplaces] at hmem
  simp only [List.mem_cons, List.not_mem_nil, or_false] at hmem
  rcases hmem with rfl | rfl
  · exact ⟨_, _, _, sumAssignment_joins⟩
  · exact ⟨_, _, _, sum_joins⟩

end Source

end ScriptIndent
