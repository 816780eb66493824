import ScriptIndent.Proofs.Rule.Lists

/-!
# ScriptIndent.Proofs.Rule.Operators

Operators of the right shape: their rules go through, and what they draft stays
inside.

The anchor of a chain may stand before the construct, at the first token of a
chain around it.  It never stands behind the construct's own first token
(`chainTop_left`), so the entries still point backwards.
-/

namespace ScriptIndent.Rule

open Draft

variable {s : Source} {n : Node} {ancestors : List Node} {i j : Nat}

/-! ## anchors around the construct -/

theorem ofKind?_of_isChainKind {kind : String} (h : Construct.isChainKind kind = true) :
    Construct.ofKind? kind = some .chain := by
  simp only [Construct.isChainKind, Construct.chainKinds, List.contains_eq_mem, List.mem_cons,
    List.not_mem_nil, or_false, decide_eq_true_eq] at h
  rcases h with rfl | rfl | rfl | rfl | rfl <;> decide

/-- The left operand of a chain stands before any operand, or is that operand. -/
theorem chain_left_le (h : s.Stands n i j) (hn : n.IsCompound) (hshape : n.ChainShape s.buffer)
    {c : Node} (hc : c ∈ n.codeChildren) {k l : Nat} (hchild : s.Stands c k l) :
    ∃ left a b, n.field? "left" = some left ∧ s.Stands left a b ∧ a < b ∧ a ≤ k := by
  obtain ⟨left, operator, right, hleft, -, -, -, hhead⟩ := hshape
  obtain ⟨more, hmore⟩ : ∃ more, n.codeChildren = left :: more := by
    cases hcs : n.codeChildren with
    | nil => simp [hcs] at hhead
    | cons c more =>
      rw [hcs] at hhead
      exact ⟨more, by rw [Option.some.inj hhead]⟩
  have hkl := h.lt_of_mem hc hchild
  have hsub : (left :: more).Sublist n.children := by
    rw [← hmore]
    exact List.filter_sublist.trans List.filter_sublist
  rw [hmore] at hc
  rcases List.mem_cons.1 hc with rfl | hc
  · exact ⟨c, k, l, hleft.1, hchild, hkl, Nat.le_refl k⟩
  · have hturn : n.InTurn [left, c] :=
      ((List.singleton_sublist.2 hc).cons_cons left).trans hsub
    obtain ⟨a, b, -, hstands, a', b', hba', hc', -⟩ := h.turn hn hturn
    obtain ⟨rfl, rfl⟩ := hchild.unique hkl hc'
    have hab := h.lt_of_mem hleft.2 hstands
    exact ⟨left, a, b, hleft.1, hstands, hab, by omega⟩

/-- The chain that a construct belongs to is the construct itself, or begins no
later than it. -/
theorem chainTop_left (g : s.root.Grammatical s.buffer)
    (hplace : ⟨n, ancestors⟩ ∈ s.root.visited []) (h : s.Stands n i j) :
    chainTop s n ancestors = n ∨
      ∃ left a b, (chainTop s n ancestors).field? "left" = some left ∧ s.Stands left a b ∧
        a < b ∧ a ≤ i := by
  induction ancestors generalizing n i j with
  | nil => exact .inl rfl
  | cons parent rest ih =>
    rw [chainTop]
    split
    · next hchain =>
      rw [Bool.and_eq_true] at hchain
      have hrule := ofKind?_of_isChainKind hchain.1
      rcases Node.mem_visited hplace with heq | ⟨⟨p, above⟩, hparent, -, hmem, hcons⟩
      · simp at heq
      simp only [List.cons.injEq] at hcons
      obtain ⟨rfl, rfl⟩ := hcons
      have hcompound := Node.isCompound_of_ofKind? hrule (by simp) (by simp)
      have hshape := Source.shape_of_visited g hparent hrule
      obtain ⟨k, l, hstands⟩ :=
        (Source.found_of_visited g hparent).exists_stands hrule (by simp)
      -- the construct stands in its parent, behind the parent's left operand
      obtain ⟨a, b, hka, hab, -, hchild⟩ := hstands.child hcompound hmem
      obtain ⟨rfl, rfl⟩ := hchild.unique hab h
      obtain ⟨left, c, d, hleft, hcd, hlt, hle⟩ := chain_left_le hstands hcompound hshape hmem h
      rcases ih hparent hstands with htop | ⟨left', c', d', hleft', hcd', hlt', hle'⟩
      · exact .inr ⟨left, c, d, by rw [htop, hleft], hcd, hlt, hle⟩
      · exact .inr ⟨left', c', d', hleft', hcd', hlt', Nat.le_trans hle' hka⟩
    · exact .inl rfl

/-- The outermost conditional expression begins no later than the one in
question, and no later than the parentheses around that one. -/
theorem ternaryTop_stands (g : s.root.Grammatical s.buffer) {wrapper : Node}
    (hwrapper : ⟨wrapper, ancestors⟩ ∈ s.root.visited []) (hwithin : n.Within wrapper)
    (h : s.Stands n i j) (hlt : i < j) :
    ∃ a b, s.Stands (ternaryTop n wrapper ancestors) a b ∧ a < b ∧ a ≤ i := by
  induction ancestors generalizing n wrapper i j with
  | nil => exact ⟨i, j, h, hlt, Nat.le_refl i⟩
  | cons parent rest ih =>
    rcases Node.mem_visited hwrapper with heq | ⟨⟨p, above⟩, hparent, -, hmem, hcons⟩
    · simp at heq
    simp only [List.cons.injEq] at hcons
    obtain ⟨rfl, rfl⟩ := hcons
    have hup := hwithin.trans (.of_mem (Node.mem_children_of_mem_codeChildren hmem))
    rw [ternaryTop]
    split
    · exact ih hparent hup h hlt
    split
    · next hternary =>
      rw [Bool.and_eq_true, beq_iff_eq] at hternary
      have hrule : Construct.ofKind? parent.kind = some .ternary := by rw [hternary.1]; decide
      obtain ⟨k, l, hstands⟩ :=
        (Source.found_of_visited g hparent).exists_stands hrule (by simp)
      have hle := hstands.le_of_within h hlt hup
      obtain ⟨a, b, htop, hab, hak⟩ := ih hparent (.refl parent) hstands (by omega)
      exact ⟨a, b, htop, hab, by omega⟩
    · exact ⟨i, j, h, hlt, Nat.le_refl i⟩

/-! ## rules -/

/-- An operator is no closing parenthesis. -/
theorem isNotClosingParen_of_value {t : Token} {value : String} (h : t.value = value)
    (hne : value ≠ ")") : t.isNotClosingParen = true := by
  simp [Token.isNotClosingParen, Token.isClosingParen, Token.isPunctuator, h, hne]

/-- The token behind a token of a stretch is placed inside, if the stretch goes on
behind it. -/
theorem after_staysInside {k : Nat} {base : Token} (hbase : s.At k base) (hik : i ≤ k)
    (hkj : k + 1 < j) (levels : Int) :
    (offsets (s.after? base).toList levels base).StaysInside s i j := by
  refine meets_offsets hbase fun t ht => ?_
  rw [(s.ends_token hbase).after?_eq, Option.mem_toList] at ht
  exact ⟨k + 1, ht, by omega⟩

/-- The rule of a chain goes through up to its anchor, wherever that is: the operator and the
first token of the right operand stand behind the left operand. -/
theorem chain_eq (h : s.Stands n i j) (hn : n.IsCompound) (hshape : n.ChainShape s.buffer)
    (ancestors : List Node) :
    ∃ left a b k l sign operand, n.field? "left" = some left ∧ s.Stands left a b ∧ i ≤ a ∧ a < b ∧
      b ≤ k ∧ k < l ∧ l < j ∧ s.At k sign ∧ s.At l operand ∧
      chain s ancestors n = firstOf s ((chainTop s n ancestors).field? "left") >>=
        offsets [sign, operand] 1 := by
  obtain ⟨left, operator, right, hleft, ⟨value, hoperator, hspelling, hvalue⟩, hright, hturn, -⟩ :=
    hshape
  obtain ⟨a, b, hia, hlstands, c, d, hbc, hostands, l, m, hdl, hrstands, (hmj : m ≤ j)⟩ :=
    h.turn hn hturn
  have hab := h.lt_of_mem hleft.2 hlstands
  have hlm := h.lt_of_mem hright.2 hrstands
  obtain ⟨rfl, u, hu, huvalue, -⟩ := hostands.spells hoperator hspelling
  -- the search for the operator stops at the operator at the latest
  obtain ⟨k, sign, hbk, hkc, hsign, -, hscan⟩ :=
    Source.exists_scanUp hbc hu (isNotClosingParen_of_value huvalue hvalue)
  obtain ⟨operand, hoperand, hfirst⟩ := (hrstands.ends hlm).exists_first?
  refine ⟨left, a, b, k, l, sign, operand, hleft.1, hlstands, hia, hab, hbk, by omega, by omega,
    hsign, hoperand, ?_⟩
  have hfind := ((hlstands.ends hab).afterWhere?_eq Token.isNotClosingParen).trans hscan
  simp only [chain, part, hleft.1, hright.1, hfind, require, firstOf, pure_bind, first_bind hfirst]

theorem chain_staysInside (g : s.root.Grammatical s.buffer)
    (hplace : ⟨n, ancestors⟩ ∈ s.root.visited []) (h : s.Stands n i j) (hn : n.IsCompound)
    (hshape : n.ChainShape s.buffer) : (chain s ancestors n).StaysInside s i j := by
  obtain ⟨left, a, b, k, l, sign, operand, hleft, hstands, hia, hab, hbk, hkl, hlj, hsign, hoperand,
    heq⟩ := chain_eq h hn hshape ancestors
  obtain ⟨left', a', b', hleft', hstands', hab', hle⟩ : ∃ left' a' b',
      (chainTop s n ancestors).field? "left" = some left' ∧ s.Stands left' a' b' ∧ a' < b' ∧
        a' ≤ a := by
    rcases chainTop_left g hplace h with htop | ⟨left', a', b', hleft', hstands', hab', hle⟩
    · exact ⟨left, a, b, by rw [htop, hleft], hstands, hab, Nat.le_refl a⟩
    · exact ⟨left', a', b', hleft', hstands', hab', Nat.le_trans hle hia⟩
  rw [heq]
  refine (meets_firstOf hleft' hstands' hab').bind fun anchor hanchor => ?_
  refine meets_offsets hanchor fun v hv => ?_
  simp only [List.mem_cons, List.not_mem_nil, or_false] at hv
  rcases hv with rfl | rfl
  · exact ⟨k, hsign, by omega⟩
  · exact ⟨l, hoperand, by omega⟩

/-- The rule of a conditional expression goes through up to its anchor, wherever that is: the
mark and the colon stand behind the condition, each with a token behind it. -/
theorem ternary_eq (h : s.Stands n i j) (hn : n.IsCompound) (hshape : n.TernaryShape s.buffer)
    (ancestors : List Node) :
    ∃ k l mark sign, i < k ∧ k < l ∧ l + 1 < j ∧ s.At k mark ∧ s.At l sign ∧
      ternary s ancestors n = (do
        offsets [mark, sign] 1 (← first s (ternaryTop n n ancestors))
        offsets (s.after? mark).toList 1 mark
        offsets (s.after? sign).toList 1 sign) := by
  obtain ⟨condition, question, consequence, colon, alternative, hcondition, hquestion,
    hconsequence, hcolon, halternative, hturn⟩ := hshape
  obtain ⟨a, b, hia, hcstands, c, d, hbc, hqstands, e, f, hde, hkstands, p, q, hfp, hostands,
    m, o, hqm, hastands, (hoj : o ≤ j)⟩ := h.turn hn hturn
  have hab := h.lt_of_mem hcondition.2 hcstands
  have hef := h.lt_of_mem hconsequence.2 hkstands
  have hmo := h.lt_of_mem halternative.2 hastands
  obtain ⟨rfl, u, hu, huvalue, -⟩ := hqstands.spells hquestion (by decide)
  obtain ⟨rfl, v, hv, hvvalue, -⟩ := hostands.spells hcolon (by decide)
  obtain ⟨k, mark, hbk, hkc, hmark, -, hscan⟩ :=
    Source.exists_scanUp hbc hu (isNotClosingParen_of_value huvalue (by decide))
  have hfindMark := ((hcstands.ends hab).afterWhere?_eq Token.isNotClosingParen).trans hscan
  obtain ⟨l, sign, hfl, hlp, hsign, -, hscan⟩ :=
    Source.exists_scanUp hfp hv (isNotClosingParen_of_value hvvalue (by decide))
  have hfindSign := ((hkstands.ends hef).afterWhere?_eq Token.isNotClosingParen).trans hscan
  refine ⟨k, l, mark, sign, by omega, by omega, by omega, hmark, hsign, ?_⟩
  simp only [ternary, part, hcondition.1, hconsequence.1, hfindMark, hfindSign, require, pure_bind]

theorem ternary_staysInside (g : s.root.Grammatical s.buffer)
    (hplace : ⟨n, ancestors⟩ ∈ s.root.visited []) (h : s.Stands n i j) (hn : n.IsCompound)
    (hshape : n.TernaryShape s.buffer) : (ternary s ancestors n).StaysInside s i j := by
  obtain ⟨k, l, mark, sign, hik, hkl, hlj, hmark, hsign, heq⟩ := ternary_eq h hn hshape ancestors
  obtain ⟨x, y, htop, hxy, hxi⟩ := ternaryTop_stands g hplace (.refl n) h (by omega)
  rw [heq]
  refine (meets_first htop hxy).bind fun anchor hanchor => ?_
  refine (meets_offsets hanchor fun w hw => ?_).next ?_
  · simp only [List.mem_cons, List.not_mem_nil, or_false] at hw
    rcases hw with rfl | rfl
    · exact ⟨k, hmark, by omega⟩
    · exact ⟨l, hsign, by omega⟩
  · exact (after_staysInside hmark (by omega) (by omega) 1).next
      (after_staysInside hsign (by omega) hlj 1)

theorem operand_staysInside (h : s.Stands n i j) (hn : n.IsCompound)
    (hshape : n.OperandShape s.buffer) : (operand s n).StaysInside s i j := by
  obtain ⟨sign, operand, ⟨value, hsign, hspelling⟩, hoperand, hturn⟩ := hshape
  have hij : i + 1 < j := by
    rcases hturn with hturn | hturn
    · obtain ⟨a, b, hia, hsstands, c, d, hbc, hostands, (hdj : d ≤ j)⟩ := h.turn hn hturn
      have := h.lt_of_mem hoperand hostands
      have := (hsstands.spells hsign hspelling).1
      omega
    · obtain ⟨a, b, hia, hostands, c, d, hbc, hsstands, (hdj : d ≤ j)⟩ := h.turn hn hturn
      have := h.lt_of_mem hoperand hostands
      have := (hsstands.spells hsign hspelling).1
      omega
  refine (meets_first h (by omega)).bind fun token htoken => ?_
  exact after_staysInside htoken (Nat.le_refl i) hij 1

theorem yielding_staysInside (h : s.Stands n i j) (hn : n.IsCompound)
    (hshape : n.YieldingShape s.buffer) : (yielding s n).StaysInside s i j := by
  unfold yielding
  rcases hshape with hempty | ⟨keyword, operand, ⟨value, hkeyword, hspelling⟩, hoperand, hstar,
    hturn⟩
  · rw [hempty]
    exact meets_pure trivial
  obtain ⟨a, b, hia, hkstands, c, d, hbc, hostands, (hdj : d ≤ j)⟩ := h.turn hn hturn
  have hcd := h.lt_of_mem hoperand hostands
  obtain ⟨rfl, -⟩ := hkstands.spells hkeyword hspelling
  obtain ⟨t, u, ht, hu, hfirsts⟩ := h.exists_firsts (by omega)
  rw [hfirsts, if_neg (by simp [List.ne_nil_of_mem hoperand])]
  refine (meets_offset ht hu (by omega)).next ?_
  split
  · next hvalue =>
    -- the star is not the operand, so the operand follows it
    have hne : c ≠ i + 1 := by
      rintro rfl
      exact hstar ((beq_iff_eq.1 hvalue) ▸ hostands.begins hcd hu)
    refine meets_offsets ht fun v hv => ?_
    rw [(s.ends_token hu).after?_eq, Option.mem_toList] at hv
    exact ⟨i + 2, hv, by omega⟩
  · exact meets_pure trivial

end ScriptIndent.Rule
